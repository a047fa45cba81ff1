import Offside.Decimal.Shortest
import Offside.Proofs.Decimal.Rounding

/-!
The fields of a double: a sign, a biased exponent and a fraction. Packing and unpacking are put in
terms of these numbers, so that negation is seen to change the sign alone.
-/
namespace Offside.Fields

open Float.Model Float.Model.UnpackedFloat

def biased (x : Float) : ℕ := x.toBits.toNat / 2 ^ 52 % 2 ^ 11

def fraction (x : Float) : ℕ := x.toBits.toNat % 2 ^ 52

def sign (x : Float) : Sign := if signBit x then .negative else .positive

theorem biased_lt (x : Float) : biased x < 2048 := Nat.mod_lt _ (by norm_num)

theorem fraction_lt (x : Float) : fraction x < 2 ^ 52 := Nat.mod_lt _ (by norm_num)

theorem ext_toBits {x y : Float} (h : x.toBits.toNat = y.toBits.toNat) : x = y :=
  Float.toBits_inj.1 (UInt64.toNat_inj.1 h)

theorem signBit_eq (x : Float) : signBit x = decide (2 ^ 63 ≤ x.toBits.toNat) := rfl

theorem toNat_sign (x : Float) : (sign x).toBitVec.toNat = x.toBits.toNat / 2 ^ 63 := by
  have hbits := x.toBits.toNat_lt
  by_cases h : 2 ^ 63 ≤ x.toBits.toNat
  · rw [sign, signBit_eq, decide_eq_true h, if_pos rfl]
    change 1 = _
    omega
  · rw [sign, signBit_eq, decide_eq_false h, if_neg Bool.false_ne_true]
    change 0 = _
    omega

/-- The bits are the fields in their places. -/
theorem toBits_eq (x : Float) :
    x.toBits.toNat = (sign x).toBitVec.toNat * 2 ^ 63 + biased x * 2 ^ 52 + fraction x := by
  have hbits := x.toBits.toNat_lt
  rw [toNat_sign, biased, fraction]
  omega

theorem toNat_packComponents (s : Sign) (e : BitVec 11) (m : BitVec 52) :
    (packComponents Format.binary64 s e m).toNat =
      s.toBitVec.toNat * 2 ^ 63 + e.toNat * 2 ^ 52 + m.toNat := by
  have happend : (packComponents Format.binary64 s e m).toNat =
      (s.toBitVec.toNat <<< 11 ||| e.toNat) <<< 52 ||| m.toNat := by
    simp only [packComponents, BitVec.toNat_append]
  rw [happend, ← Nat.shiftLeft_add_eq_or_of_lt m.isLt, ← Nat.shiftLeft_add_eq_or_of_lt e.isLt]
  simp only [Nat.shiftLeft_eq]
  ring

theorem toNat_unpackExponent (x : Float) :
    (@unpackExponent Format.binary64 x.toBits.toBitVec).toNat = biased x := by
  simp [unpackExponent, biased, Nat.shiftRight_eq_div_pow]

theorem toNat_unpackMantissa (x : Float) :
    (@unpackMantissa Format.binary64 x.toBits.toBitVec).toNat = fraction x := by
  simp [unpackMantissa, fraction]

theorem ofBitVec_unpackSign (x : Float) :
    Sign.ofBitVec (@unpackSign Format.binary64 x.toBits.toBitVec) = sign x := by
  have hbits := x.toBits.toNat_lt
  have htoNat : (@unpackSign Format.binary64 x.toBits.toBitVec).toNat =
      (sign x).toBitVec.toNat := by
    rw [toNat_sign]
    change x.toBits.toNat >>> 63 % 2 = _
    rw [Nat.shiftRight_eq_div_pow]
    omega
  rw [BitVec.eq_of_toNat_eq htoNat, Sign.ofBitVec_toBitVec]

/-- The mantissa that the fields stand for, with the bit that is not written. -/
def significand (biased fraction : ℕ) : ℕ := if biased = 0 then fraction else 2 ^ 52 + fraction

/-- The exponent that the fields stand for. -/
def scale (biased : ℕ) : ℤ := max biased 1 - 1075

theorem significand_zero (f : ℕ) : significand 0 f = f := rfl

theorem significand_normal {b : ℕ} (hb : b ≠ 0) (f : ℕ) : significand b f = 2 ^ 52 + f := if_neg hb

theorem log2_significand {b f : ℕ} (hb : b ≠ 0) (hf : f < 2 ^ 52) :
    (significand b f).log2 = 52 := by
  rw [significand_normal hb, Nat.log2_eq_iff (by omega)]
  omega

theorem toNat_pack_finite (s : Sign) {b f : ℕ} (hb : b < 2047) (hf : f < 2 ^ 52)
    (h : 0 < significand b f) :
    (UnpackedFloat.pack Format.binary64 (.finite s (significand b f) (scale b) h)).toNat =
      s.toBitVec.toNat * 2 ^ 63 + b * 2 ^ 52 + f := by
  have hscale : (scale b + 1023 + 52).toNat = max b 1 := by
    rw [scale]
    omega
  have hlarge : ¬2 ^ 11 ≤ (scale b + 1023 + 52).toNat + 1 := by omega
  have hpack : UnpackedFloat.pack Format.binary64 (.finite s (significand b f) (scale b) h) =
      if (significand b f).log2 + 1 = 53 then
        packComponents Format.binary64 s (.ofNat 11 (scale b + 1023 + 52).toNat)
          (.ofNat 52 (significand b f))
      else packComponents Format.binary64 s 0 (.ofNat 52 (significand b f)) := if_neg hlarge
  rw [hpack, hscale]
  by_cases hzero : b = 0
  · subst hzero
    have hlog : (significand 0 f).log2 < 52 := (Nat.log2_lt h.ne').2 hf
    rw [if_neg (by omega), toNat_packComponents, significand_zero, BitVec.toNat_ofNat]
    simp only [BitVec.ofNat_eq_ofNat, BitVec.toNat_zero]
    omega
  · have hlog := log2_significand hzero hf
    rw [if_pos (by omega), toNat_packComponents, significand_normal hzero, BitVec.toNat_ofNat,
      BitVec.toNat_ofNat]
    omega

/-- What a double is unpacked to, in terms of its fields. -/
theorem unpack_eq (x : Float) : x.toModel.unpack =
    if biased x = 2047 then (if fraction x = 0 then .infinity (sign x) else .notANumber)
    else if h : significand (biased x) (fraction x) = 0 then .zero (sign x)
    else .finite (sign x) (significand (biased x) (fraction x)) (scale (biased x))
      (Nat.pos_of_ne_zero h) := by
  have hones : @unpackExponent Format.binary64 x.toBits.toBitVec = -1#11 ↔ biased x = 2047 := by
    rw [← toNat_unpackExponent, ← BitVec.toNat_inj]
    rfl
  have hzeros : @unpackExponent Format.binary64 x.toBits.toBitVec = 0#11 ↔ biased x = 0 := by
    rw [← toNat_unpackExponent, ← BitVec.toNat_inj]
    rfl
  have hnone : @unpackMantissa Format.binary64 x.toBits.toBitVec = 0#52 ↔ fraction x = 0 := by
    rw [← toNat_unpackMantissa, ← BitVec.toNat_inj]
    rfl
  have himplicit : (1#1 ++ @unpackMantissa Format.binary64 x.toBits.toBitVec).toNat =
      2 ^ 52 + fraction x := by
    rw [BitVec.toNat_append, ← Nat.shiftLeft_add_eq_or_of_lt (BitVec.isLt _), toNat_unpackMantissa]
    rfl
  have hbias : Format.binary64.exponentBias = 1023 := rfl
  change UnpackedFloat.unpack Format.binary64 x.toBits.toBitVec = _
  rw [UnpackedFloat.unpack]
  simp only [ofBitVec_unpackSign, hones, hzeros, hnone, toNat_unpackExponent, himplicit,
    toNat_unpackMantissa, hbias]
  split
  · rfl
  · by_cases hb : biased x = 0
    · simp only [hb, significand_zero, if_true]
      rfl
    · rw [if_neg hb, dif_neg (by rw [significand_normal hb]; omega)]
      congr 1
      · exact (significand_normal hb _).symm
      · rw [scale]
        omega

theorem isNaN_iff (x : Float) : x.isNaN = true ↔ biased x = 2047 ∧ fraction x ≠ 0 := by
  change x.toModel.unpack.isNaN = true ↔ _
  rw [unpack_eq]
  split
  · split <;> simp_all [UnpackedFloat.isNaN]
  · split <;> simp_all [UnpackedFloat.isNaN]

theorem isInf_iff (x : Float) : x.isInf = true ↔ biased x = 2047 ∧ fraction x = 0 := by
  change x.toModel.unpack.isInf = true ↔ _
  rw [unpack_eq]
  split
  · split <;> simp_all [UnpackedFloat.isInf]
  · split <;> simp_all [UnpackedFloat.isInf]

/-- Packing what a double is unpacked to, with another sign, changes the sign alone. -/
theorem toBits_neg {x : Float} (hn : x.isNaN = false) :
    (-x).toBits.toNat = (-sign x).toBitVec.toNat * 2 ^ 63 + biased x * 2 ^ 52 + fraction x := by
  have hnan : ¬(biased x = 2047 ∧ fraction x ≠ 0) := by rw [← isNaN_iff, hn]; decide
  have hlt := biased_lt x
  change (UnpackedFloat.pack Format.binary64 x.toModel.unpack.neg).toNat = _
  rw [unpack_eq]
  split
  · rename_i hb
    have hf : fraction x = 0 := by_contra fun hf => hnan ⟨hb, hf⟩
    rw [if_pos hf, hb, hf]
    exact toNat_packComponents _ _ _
  · split
    · rename_i hb h
      have hzero : biased x = 0 := by
        by_contra hne
        rw [significand_normal hne] at h
        omega
      rw [hzero, significand_zero] at h
      rw [hzero, h]
      exact toNat_packComponents _ _ _
    · exact toNat_pack_finite _ (by omega) (fraction_lt x) _

theorem sign_ext {s t : Sign} (h : s.toBitVec.toNat = t.toBitVec.toNat) : s = t := by
  rw [← Sign.ofBitVec_toBitVec s, BitVec.eq_of_toNat_eq h, Sign.ofBitVec_toBitVec]

theorem fields_of_toBits {x : Float} {s : Sign} {b f : ℕ} (hb : b < 2048) (hf : f < 2 ^ 52)
    (h : x.toBits.toNat = s.toBitVec.toNat * 2 ^ 63 + b * 2 ^ 52 + f) :
    sign x = s ∧ biased x = b ∧ fraction x = f := by
  have hsign := toNat_sign x
  refine ⟨sign_ext (by omega), ?_, ?_⟩
  · rw [biased]
    omega
  · rw [fraction]
    omega

theorem fields_neg {x : Float} (hn : x.isNaN = false) :
    sign (-x) = -sign x ∧ biased (-x) = biased x ∧ fraction (-x) = fraction x :=
  fields_of_toBits (biased_lt x) (fraction_lt x) (toBits_neg hn)

theorem isNaN_neg {x : Float} (hn : x.isNaN = false) : (-x).isNaN = false := by
  obtain ⟨-, hb, hf⟩ := fields_neg hn
  rw [← Bool.not_eq_true, isNaN_iff, hb, hf, ← isNaN_iff, hn]
  decide

theorem signBit_neg {x : Float} (hn : x.isNaN = false) : signBit (-x) = !signBit x := by
  have hs := (fields_neg hn).1
  unfold sign at hs
  cases hx : signBit x with
  | false =>
    cases hy : signBit (-x) with
    | true => rfl
    | false =>
      rw [hx, hy] at hs
      cases hs
  | true =>
    cases hy : signBit (-x) with
    | false => rfl
    | true =>
      rw [hx, hy] at hs
      cases hs

theorem neg_neg_eq {x : Float} (hn : x.isNaN = false) : - -x = x := by
  obtain ⟨hs, hb, hf⟩ := fields_neg hn
  refine ext_toBits ?_
  rw [toBits_neg (isNaN_neg hn), toBits_eq x, hs, hb, hf]
  cases sign x <;> rfl

/-- Doubles of positive sign with the same exponent and fraction are the same. -/
theorem ext_fields {x y : Float} (hx : signBit x = false) (hy : signBit y = false)
    (hb : biased x = biased y) (hf : fraction x = fraction y) : x = y := by
  refine ext_toBits ?_
  rw [toBits_eq x, toBits_eq y, sign, sign, hx, hy, hb, hf]

end Offside.Fields

namespace Offside.Decimal

open Float.Model Float.Model.UnpackedFloat Rounding Fields

/-- Rounding leaves a mantissa alone that stands at its target exponent. -/
theorem round_exact (s : Sign) {m : ℕ} {e : ℤ} (hm : 0 < m) (ht : target m e = e) :
    roundWithAccuracy Format.binary64 s m e .exact = .finite s m e hm := by
  have hzero : (target m e - e).toNat = 0 := by omega
  have hshift : shiftToTargetExponent Format.binary64 m e .exact = (⟨m, false, false⟩, e) := by
    refine Prod.ext ?_ ?_
    · change ExtendedMantissa.ofMantissaAndAccuracy m .exact >>> (target m e - e).toNat = _
      rw [hzero]
      rfl
    · change e + ((target m e - e).toNat : ℤ) = e
      omega
  have hrounded : ExtendedMantissa.roundedMantissa ⟨m, false, false⟩ = m := rfl
  simp only [roundWithAccuracy, hshift, hrounded]
  exact dif_neg hm.ne'

theorem quotient_eq (x : Float) : quotient x =
    (significand (biased x) (fraction x) * 2 ^ (max (biased x) 1 - 1075),
      1075 - max (biased x) 1) := rfl

theorem exact_eq (num k : ℕ) : exact num k = ⟨num * 5 ^ k, -k⟩ := rfl

theorem exact_value (num k : ℕ) : (exact num k).value = num / 2 ^ k := by
  have hten : (10 : ℚ) ^ k = 2 ^ k * 5 ^ k := by rw [← mul_pow]; norm_num
  rw [exact_eq, value, zpow_neg, zpow_natCast, hten]
  push_cast
  field_simp

theorem exact_quotient_value (x : Float) : (exact (quotient x).1 (quotient x).2).value =
    significand (biased x) (fraction x) * 2 ^ scale (biased x) := by
  have hscale : scale (biased x) =
      (max (biased x) 1 - 1075 : ℕ) - (1075 - max (biased x) 1 : ℕ) := by
    rw [scale]
    omega
  rw [exact_value, quotient_eq, hscale, zpow_sub₀ (by norm_num), zpow_natCast, zpow_natCast]
  push_cast
  ring

theorem target_significand {b f : ℕ} (hf : f < 2 ^ 52) (hne : significand b f ≠ 0) :
    target (significand b f) (scale b) = scale b := by
  rw [target_eq]
  by_cases hb : b = 0
  · subst hb
    have hlog : (significand 0 f).log2 < 52 := (Nat.log2_lt hne).2 hf
    rw [scale]
    omega
  · rw [log2_significand hb hf, scale]
    omega

/-- The exact decimal of a positive finite double is read as that double. -/
theorem toFloat_exact {x : Float} (hsign : signBit x = false) (hfinite : biased x ≠ 2047)
    (hne : significand (biased x) (fraction x) ≠ 0) :
    (exact (quotient x).1 (quotient x).2).toFloat = x := by
  have htarget := target_significand (b := biased x) (fraction_lt x) hne
  have hfits : Fits (significand (biased x) (fraction x)) (scale (biased x)) .exact
      (exact (quotient x).1 (quotient x).2).value := by
    rw [exact_quotient_value]
    exact ⟨approximates_exact _ _, htarget.ge⟩
  have hmantissa : (exact (quotient x).1 (quotient x).2).mantissa ≠ 0 := by
    rw [quotient_eq, exact_eq]
    exact Nat.mul_ne_zero (Nat.mul_ne_zero hne (by positivity)) (by positivity)
  rw [toFloat_of_fits hmantissa hfits, round_exact .positive (Nat.pos_of_ne_zero hne) htarget]
  refine ext_toBits ?_
  have hlt := biased_lt x
  rw [toBits_eq x, sign, hsign]
  exact toNat_pack_finite .positive (by omega) (fraction_lt x) (Nat.pos_of_ne_zero hne)

end Offside.Decimal
