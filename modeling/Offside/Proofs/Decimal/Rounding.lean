import Mathlib
import Offside.Decimal.Basic

/-!
Rounding to doubles depends on the value alone. A mantissa with its round and sticky bits says
where a value lies within a unit of its exponent; shifting keeps what is said, and at one exponent
only one mantissa says it. Hence two ways to write a value that leave enough digits below the
binary point round alike, and a decimal is read as the double that any of them rounds to.
-/
namespace Offside.Rounding

open Float.Model Float.Model.UnpackedFloat

/-- The value is the mantissa and a fraction of a unit, in units of `2 ^ e`; the round bit says
whether the fraction reaches one half, the sticky bit whether it is neither zero nor one half. -/
def Approximates (em : ExtendedMantissa) (e : ℤ) (v : ℚ) : Prop :=
  ∃ f : ℚ, v = (em.mantissa + f) * 2 ^ e ∧ 0 ≤ f ∧ f < 1 ∧
    (em.roundBit = true ↔ 1 / 2 ≤ f) ∧ (em.stickyBit = true ↔ f ≠ 0 ∧ f ≠ 1 / 2)

theorem Approximates.shiftRightOne {em : ExtendedMantissa} {e : ℤ} {v : ℚ}
    (h : Approximates em e v) : Approximates em.shiftRightOne (e + 1) v := by
  obtain ⟨f, hv, hnonneg, hlt, hround, hsticky⟩ := h
  have hmod : (em.mantissa : ℚ) = 2 * (em.mantissa / 2 : ℕ) + (em.mantissa % 2 : ℕ) := by
    exact_mod_cast (Nat.div_add_mod em.mantissa 2).symm
  have hsum : em.shiftRightOne.stickyBit = true ↔ f ≠ 0 := by
    rw [ExtendedMantissa.shiftRightOne, Bool.or_eq_true, hround, hsticky]
    constructor
    · rintro (hhalf | hne)
      · linarith
      · exact hne.1
    · intro hne
      by_cases hhalf : f = 1 / 2
      · exact .inl hhalf.ge
      · exact .inr ⟨hne, hhalf⟩
  have hle : ((em.mantissa % 2 : ℕ) : ℚ) ≤ 1 := by
    exact_mod_cast Nat.lt_succ_iff.1 (Nat.mod_lt em.mantissa two_pos)
  -- The new round bit is the bit that leaves the mantissa.
  have hout : em.shiftRightOne.roundBit = (em.mantissa % 2 != 0) := rfl
  refine ⟨((em.mantissa % 2 : ℕ) + f) / 2, ?_, by positivity, by linarith, ?_, ?_⟩
  · rw [hv, hmod, zpow_add_one₀ (by norm_num)]
    simp only [ExtendedMantissa.shiftRightOne]
    ring
  · rw [hout]
    rcases Nat.mod_two_eq_zero_or_one em.mantissa with hbit | hbit
    · simp only [hbit, bne_self_eq_false, Bool.false_eq_true, Nat.cast_zero, false_iff, not_le]
      linarith
    · simp only [hbit, ne_eq, one_ne_zero, not_false_eq_true, bne_iff_ne, Nat.cast_one, true_iff]
      linarith
  · rw [hsum]
    rcases Nat.mod_two_eq_zero_or_one em.mantissa with hbit | hbit
    · rw [hbit, Nat.cast_zero]
      constructor
      · intro hne
        exact ⟨by simpa using hne, by intro h; linarith⟩
      · rintro ⟨hne, -⟩ rfl
        exact hne (by norm_num)
    · rw [hbit, Nat.cast_one]
      constructor
      · intro hne
        exact ⟨by positivity, fun h => hne (by linarith)⟩
      · rintro ⟨-, hne⟩ rfl
        exact hne (by norm_num)

theorem Approximates.shiftRight {em : ExtendedMantissa} {e : ℤ} {v : ℚ}
    (h : Approximates em e v) (n : ℕ) : Approximates (em >>> n) (e + n) v := by
  change Approximates (n.repeat ExtendedMantissa.shiftRightOne em) (e + n) v
  induction n with
  | zero => simpa [Nat.repeat] using h
  | succ n ih =>
    rw [Nat.cast_succ, ← add_assoc]
    exact ih.shiftRightOne

/-- At one exponent, only one mantissa says where a value lies. -/
theorem Approximates.unique {em em' : ExtendedMantissa} {e : ℤ} {v : ℚ}
    (h : Approximates em e v) (h' : Approximates em' e v) : em = em' := by
  obtain ⟨f, hv, hnonneg, hlt, hround, hsticky⟩ := h
  obtain ⟨f', hv', hnonneg', hlt', hround', hsticky'⟩ := h'
  have hpos : (0 : ℚ) < 2 ^ e := by positivity
  have hsum : (em.mantissa : ℚ) + f = em'.mantissa + f' :=
    mul_right_cancel₀ hpos.ne' (hv.symm.trans hv')
  have hmantissa : em.mantissa = em'.mantissa := by
    have hle : (em.mantissa : ℚ) < em'.mantissa + 1 := by linarith
    have hge : (em'.mantissa : ℚ) < em.mantissa + 1 := by linarith
    have hle : em.mantissa < em'.mantissa + 1 := by exact_mod_cast hle
    have hge : em'.mantissa < em.mantissa + 1 := by exact_mod_cast hge
    omega
  have hfraction : f = f' := by
    rw [hmantissa] at hsum
    linarith
  subst hfraction
  have hroundBit : em.roundBit = em'.roundBit := Bool.eq_iff_iff.2 (hround.trans hround'.symm)
  have hstickyBit : em.stickyBit = em'.stickyBit := Bool.eq_iff_iff.2 (hsticky.trans hsticky'.symm)
  cases em
  cases em'
  simp_all

/-- The exponent that rounding goes to. -/
def target (m : ℕ) (e : ℤ) : ℤ := Format.binary64.targetExponent (totalExponent m e)

theorem target_eq (m : ℕ) (e : ℤ) : target m e = max (m.log2 + e - 52) (-1074) := by
  simp only [target, Format.targetExponent, totalExponent, Format.mantissaBits, Format.minExponent]
  omega

/-- A mantissa with its accuracy that tells the value apart finely enough to be rounded. -/
structure Fits (m : ℕ) (e : ℤ) (accuracy : Accuracy) (v : ℚ) : Prop where
  approximates : Approximates (ExtendedMantissa.ofMantissaAndAccuracy m accuracy) e v
  fine : e ≤ target m e

theorem ofMantissaAndAccuracy_mantissa (m : ℕ) (accuracy : Accuracy) :
    (ExtendedMantissa.ofMantissaAndAccuracy m accuracy).mantissa = m := by
  rcases accuracy with _ | (_ | _ | _) <;> rfl

theorem Approximates.bounds {em : ExtendedMantissa} {e : ℤ} {v : ℚ} (h : Approximates em e v) :
    em.mantissa * 2 ^ e ≤ v ∧ v < (em.mantissa + 1) * 2 ^ e := by
  obtain ⟨f, hv, hnonneg, hlt, -, -⟩ := h
  have hpos : (0 : ℚ) < 2 ^ e := by positivity
  rw [hv]
  constructor
  · gcongr
    linarith
  · gcongr

theorem Fits.bounds {m : ℕ} {e : ℤ} {accuracy : Accuracy} {v : ℚ} (h : Fits m e accuracy v) :
    m * 2 ^ e ≤ v ∧ v < (m + 1) * 2 ^ e := by
  have hbounds := h.approximates.bounds
  rwa [ofMantissaAndAccuracy_mantissa] at hbounds

theorem Fits.log_bounds {m : ℕ} {e : ℤ} {accuracy : Accuracy} {v : ℚ} (h : Fits m e accuracy v)
    (hm : m ≠ 0) : (2 : ℚ) ^ (m.log2 + e) ≤ v ∧ v < (2 : ℚ) ^ (m.log2 + e + 1) := by
  obtain ⟨hle, hlt⟩ := h.bounds
  have hpos : (0 : ℚ) < 2 ^ e := by positivity
  have hlow : ((2 : ℚ) ^ m.log2) ≤ m := by exact_mod_cast Nat.log2_self_le hm
  have hhigh : (m : ℚ) + 1 ≤ 2 ^ (m.log2 + 1) := by exact_mod_cast Nat.lt_log2_self
  constructor
  · rw [zpow_add₀ (by norm_num), zpow_natCast]
    exact le_trans (by gcongr) hle
  · rw [add_right_comm, zpow_add₀ (by norm_num)]
    refine lt_of_lt_of_le hlt ?_
    gcongr
    exact_mod_cast hhigh

/-- A mantissa of zero leaves the least exponent only. -/
theorem Fits.le_of_zero {e : ℤ} {accuracy : Accuracy} {v : ℚ} (h : Fits 0 e accuracy v) :
    e ≤ -1074 := by
  have hfine := h.fine
  rw [target_eq, Nat.log2_zero] at hfine
  omega

theorem Fits.lt_of_zero {e : ℤ} {accuracy : Accuracy} {v : ℚ} (h : Fits 0 e accuracy v) :
    v < 2 ^ (-1074 : ℤ) := by
  have hlt := h.bounds.2
  rw [Nat.cast_zero, zero_add, one_mul] at hlt
  exact lt_of_lt_of_le hlt (zpow_le_zpow_right₀ (by norm_num) h.le_of_zero)

theorem two_zpow_lt {a b : ℤ} {v : ℚ} (hle : (2 : ℚ) ^ a ≤ v) (hlt : v < (2 : ℚ) ^ b) : a < b :=
  (zpow_lt_zpow_iff_right₀ (by norm_num)).1 (lt_of_le_of_lt hle hlt)

/-- The exponent that a value is rounded at does not depend on how the value is written. -/
theorem Fits.target_congr {m m' : ℕ} {e e' : ℤ} {a a' : Accuracy} {v : ℚ} (h : Fits m e a v)
    (h' : Fits m' e' a' v) : target m e = target m' e' := by
  have hleast : ∀ {m : ℕ} {e : ℤ} {a : Accuracy}, Fits m e a v → v < 2 ^ (-1074 : ℤ) →
      target m e = -1074 := by
    intro m e a h hv
    rw [target_eq]
    by_cases hm : m = 0
    · subst hm
      have := h.le_of_zero
      rw [Nat.log2_zero]
      omega
    · have := two_zpow_lt (h.log_bounds hm).1 hv
      omega
  by_cases hm : m = 0
  · subst hm
    rw [hleast h h.lt_of_zero, hleast h' h.lt_of_zero]
  · by_cases hm' : m' = 0
    · subst hm'
      rw [hleast h h'.lt_of_zero, hleast h' h'.lt_of_zero]
    · have hlow := two_zpow_lt (h.log_bounds hm).1 (h'.log_bounds hm').2
      have hhigh := two_zpow_lt (h'.log_bounds hm').1 (h.log_bounds hm).2
      rw [target_eq, target_eq]
      omega

/-- What rounding makes of a rounded mantissa at an exponent. -/
def settle (sign : Sign) (m : ℕ) (e : ℤ) : UnpackedFloat :=
  let final := shiftToTargetExponent Format.binary64 m e .exact
  if h : final.1.mantissa = 0 then .zero sign
  else .finite sign final.1.mantissa final.2 (Nat.pos_of_ne_zero h)

/-- Rounding goes to the target exponent, where the value has one mantissa only. -/
theorem Fits.round_eq {m : ℕ} {e : ℤ} {a : Accuracy} {v : ℚ} (h : Fits m e a v) (sign : Sign) :
    ∃ em, Approximates em (target m e) v ∧
      roundWithAccuracy Format.binary64 sign m e a =
        settle sign em.roundedMantissa (target m e) := by
  have hshift := h.approximates.shiftRight (target m e - e).toNat
  have hend : e + (target m e - e).toNat = target m e := by
    have := h.fine
    omega
  rw [hend] at hshift
  refine ⟨_, hshift, ?_⟩
  have hfirst : shiftToTargetExponent Format.binary64 m e a =
      (ExtendedMantissa.ofMantissaAndAccuracy m a >>> (target m e - e).toNat, target m e) :=
    Prod.ext rfl hend
  simp only [roundWithAccuracy, hfirst]
  rfl

/-- Rounding depends on the value alone. -/
theorem Fits.round_congr {m m' : ℕ} {e e' : ℤ} {a a' : Accuracy} {v : ℚ} (h : Fits m e a v)
    (h' : Fits m' e' a' v) (sign : Sign) :
    roundWithAccuracy Format.binary64 sign m e a =
      roundWithAccuracy Format.binary64 sign m' e' a' := by
  obtain ⟨em, hem, hround⟩ := h.round_eq sign
  obtain ⟨em', hem', hround'⟩ := h'.round_eq sign
  rw [← h.target_congr h'] at hem' hround'
  rw [hround, hround', hem.unique hem']

theorem approximates_exact (m : ℕ) (e : ℤ) :
    Approximates (ExtendedMantissa.ofMantissaAndAccuracy m .exact) e (m * 2 ^ e) := by
  refine ⟨0, ?_, le_rfl, one_pos, ?_, ?_⟩
  · rw [add_zero]
    rfl
  · simp [ExtendedMantissa.ofMantissaAndAccuracy]
  · simp [ExtendedMantissa.ofMantissaAndAccuracy]

theorem mantissa_shiftRight (em : ExtendedMantissa) (n : ℕ) :
    (em >>> n).mantissa = em.mantissa / 2 ^ n := by
  change (n.repeat ExtendedMantissa.shiftRightOne em).mantissa = em.mantissa / 2 ^ n
  induction n with
  | zero => simp [Nat.repeat]
  | succ n ih =>
    rw [Nat.repeat, ExtendedMantissa.shiftRightOne, ih, Nat.div_div_eq_div_mul, pow_succ]

/-- A rounded mantissa that is not zero stays so, and the exponent does not fall. -/
theorem settle_finite (sign : Sign) {m : ℕ} {e : ℤ} (hm : m ≠ 0) (he : -1074 ≤ e) :
    ∃ m' e' hm', settle sign m e = .finite sign m' e' hm' ∧ e ≤ e' := by
  have hshift : (target m e - e).toNat ≤ m.log2 := by
    rw [target_eq]
    omega
  have hdiv : 1 ≤ m / 2 ^ (target m e - e).toNat := by
    rw [Nat.le_div_iff_mul_le (by positivity), one_mul]
    exact le_trans (Nat.pow_le_pow_right (by norm_num) hshift) (Nat.log2_self_le hm)
  have hmantissa : (shiftToTargetExponent Format.binary64 m e .exact).1.mantissa =
      m / 2 ^ (target m e - e).toNat := mantissa_shiftRight _ _
  have hne : (shiftToTargetExponent Format.binary64 m e .exact).1.mantissa ≠ 0 := by omega
  refine ⟨_, _, Nat.pos_of_ne_zero hne, dif_neg hne, ?_⟩
  exact Int.le_add_of_nonneg_right (Int.natCast_nonneg _)

theorem le_roundedMantissa (em : ExtendedMantissa) : em.mantissa ≤ em.roundedMantissa := by
  rcases em with ⟨m, _ | _, _ | _⟩ <;>
    simp [ExtendedMantissa.roundedMantissa, ExtendedMantissa.accuracy,
      Accuracy.roundToNearestEven]

/-- Values from `2 ^ 1024` on are beyond the largest double. -/
theorem Fits.pack_eq_infinity {m : ℕ} {e : ℤ} {a : Accuracy} {v : ℚ} (h : Fits m e a v)
    (hv : (2 : ℚ) ^ (1024 : ℤ) ≤ v) (sign : Sign) :
    UnpackedFloat.pack Format.binary64 (roundWithAccuracy Format.binary64 sign m e a) =
      UnpackedFloat.pack Format.binary64 (.infinity sign) := by
  have hm : m ≠ 0 := by
    rintro rfl
    have := two_zpow_lt hv h.lt_of_zero
    omega
  have hlog := two_zpow_lt hv (h.log_bounds hm).2
  have htarget : target m e = m.log2 + e - 52 := by
    rw [target_eq]
    omega
  obtain ⟨em, hem, hround⟩ := h.round_eq sign
  have hmantissa : em.mantissa ≠ 0 := by
    intro hzero
    have hlt := hem.bounds.2
    rw [hzero, Nat.cast_zero, zero_add, one_mul] at hlt
    have := two_zpow_lt (h.log_bounds hm).1 hlt
    omega
  have hrounded : em.roundedMantissa ≠ 0 := by
    have := le_roundedMantissa em
    omega
  obtain ⟨m', e', hm', hsettle, he'⟩ := settle_finite (e := target m e) sign hrounded (by omega)
  rw [hround, hsettle]
  have hbiased : 2 ^ 11 ≤ (e' + 1023 + 52).toNat + 1 := by omega
  exact if_pos hbiased

/-- Values below `2 ^ -1075` are rounded to zero. -/
theorem Fits.round_eq_zero {m : ℕ} {e : ℤ} {a : Accuracy} {v : ℚ} (h : Fits m e a v)
    (hv : v < (2 : ℚ) ^ (-1075 : ℤ)) (sign : Sign) :
    roundWithAccuracy Format.binary64 sign m e a = .zero sign := by
  have htarget : target m e = -1074 := by
    rw [target_eq]
    by_cases hm : m = 0
    · subst hm
      have := h.le_of_zero
      rw [Nat.log2_zero]
      omega
    · have := two_zpow_lt (h.log_bounds hm).1 hv
      omega
  obtain ⟨em, ⟨f, hf, hnonneg, -, hroundBit, -⟩, hround⟩ := h.round_eq sign
  rw [htarget] at hf hround
  have hsmall : (em.mantissa : ℚ) + f < 1 / 2 := by
    have hpos : (0 : ℚ) < 2 ^ (-1074 : ℤ) := by positivity
    have hhalf : (2 : ℚ) ^ (-1075 : ℤ) = 1 / 2 * 2 ^ (-1074 : ℤ) := by
      rw [show (-1075 : ℤ) = -1 + -1074 by norm_num, zpow_add₀ (by norm_num)]
      norm_num
    rw [hf, hhalf] at hv
    exact lt_of_mul_lt_mul_right hv hpos.le
  have hmantissa : em.mantissa = 0 := by
    have hlt : (em.mantissa : ℚ) < 1 := by linarith
    have hlt : em.mantissa < 1 := by exact_mod_cast hlt
    omega
  have hbit : em.roundBit = false := by
    rw [← Bool.not_eq_true, hroundBit, not_le]
    have : (0 : ℚ) ≤ em.mantissa := by positivity
    linarith
  have hrounded : em.roundedMantissa = 0 := by
    rcases em with ⟨m, round, sticky⟩
    subst hmantissa hbit
    cases sticky <;> rfl
  rw [hround, hrounded]
  rfl

theorem fits_product {m n : ℕ} (hm : m ≠ 0) (hn : n ≠ 0) :
    Fits ((m <<< 53) * n) (-53) .exact (m * n) := by
  have hvalue : (m * n : ℚ) = ((m <<< 53) * n : ℕ) * 2 ^ (-53 : ℤ) := by
    rw [Nat.shiftLeft_eq]
    push_cast
    field_simp
    norm_num
  refine ⟨hvalue ▸ approximates_exact _ _, ?_⟩
  have hlog : 53 ≤ ((m <<< 53) * n).log2 := by
    rw [Nat.le_log2 (by simp [hm, hn]), Nat.shiftLeft_eq]
    have : 1 ≤ m * n := Nat.one_le_iff_ne_zero.2 (Nat.mul_ne_zero hm hn)
    nlinarith
  rw [target_eq]
  omega

theorem accuracyOfFraction_bits (q : ℕ) {r n : ℕ} (hlt : r < n) :
    ((ExtendedMantissa.ofMantissaAndAccuracy q (accuracyOfFraction r n)).roundBit = true ↔
      n ≤ 2 * r) ∧
    ((ExtendedMantissa.ofMantissaAndAccuracy q (accuracyOfFraction r n)).stickyBit = true ↔
      r ≠ 0 ∧ 2 * r ≠ n) := by
  by_cases hr : r = 0
  · subst hr
    simp [accuracyOfFraction, ExtendedMantissa.ofMantissaAndAccuracy, hlt.ne']
  · rw [accuracyOfFraction, if_neg hr]
    cases hcompare : compare (2 * r) n with
    | lt =>
      have := Nat.compare_eq_lt.1 hcompare
      simp [ExtendedMantissa.ofMantissaAndAccuracy, hr, this, this.ne]
    | eq =>
      have := Nat.compare_eq_eq.1 hcompare
      simp [ExtendedMantissa.ofMantissaAndAccuracy, this]
    | gt =>
      have := Nat.compare_eq_gt.1 hcompare
      simp [ExtendedMantissa.ofMantissaAndAccuracy, hr, this.le, this.ne']

theorem approximates_fraction (q : ℕ) {r n : ℕ} (hlt : r < n) (e : ℤ) :
    Approximates (ExtendedMantissa.ofMantissaAndAccuracy q (accuracyOfFraction r n)) e
      ((q + r / n) * 2 ^ e) := by
  have hpos : (0 : ℚ) < n := by exact_mod_cast Nat.zero_lt_of_lt hlt
  have hhalf : (1 / 2 : ℚ) ≤ r / n ↔ n ≤ 2 * r := by
    rw [div_le_div_iff₀ (by norm_num) hpos, one_mul, mul_comm]
    exact_mod_cast Iff.rfl
  have hmiddle : (r / n : ℚ) = 1 / 2 ↔ 2 * r = n := by
    rw [div_eq_div_iff hpos.ne' (by norm_num), one_mul, mul_comm]
    exact_mod_cast Iff.rfl
  have hzero : (r / n : ℚ) = 0 ↔ r = 0 := by
    rw [div_eq_zero_iff, or_iff_left hpos.ne']
    exact_mod_cast Iff.rfl
  obtain ⟨hround, hsticky⟩ := accuracyOfFraction_bits q hlt
  refine ⟨r / n, ?_, by positivity, ?_, ?_, ?_⟩
  · rw [ofMantissaAndAccuracy_mantissa]
  · rw [div_lt_one hpos]
    exact_mod_cast hlt
  · rw [hhalf, hround]
  · rw [ne_eq, ne_eq, hzero, hmiddle, hsticky]

theorem fits_shifted_quotient {m n k : ℕ} (hm : m ≠ 0) (hn : n ≠ 0)
    (hk : (-k : ℤ) ≤ -1074 ∨ (-k : ℤ) ≤ m.log2 - n.log2 - 53) :
    Fits ((m <<< k) / n) (-k) (accuracyOfFraction ((m <<< k) % n) n) (m / n) := by
  have hpos : (0 : ℚ) < n := by positivity
  have hvalue : (m / n : ℚ) = (((m <<< k) / n : ℕ) + ((m <<< k) % n : ℕ) / n) * 2 ^ (-k : ℤ) := by
    have hsplit : ((m * 2 ^ k : ℕ) : ℚ) = n * ((m <<< k) / n : ℕ) + ((m <<< k) % n : ℕ) := by
      rw [← Nat.shiftLeft_eq]
      exact_mod_cast (Nat.div_add_mod _ _).symm
    rw [zpow_neg, zpow_natCast]
    field_simp
    push_cast at hsplit
    linarith
  refine ⟨hvalue ▸ approximates_fraction _ (Nat.mod_lt _ (Nat.pos_of_ne_zero hn)) _, ?_⟩
  rw [target_eq]
  rcases hk with hk | hk
  · omega
  · have hlog : 52 ≤ ((m <<< k) / n).log2 := by
      have hpow : 2 ^ 52 * n ≤ m <<< k := by
        calc 2 ^ 52 * n ≤ 2 ^ 52 * 2 ^ (n.log2 + 1) := by
              gcongr
              exact Nat.lt_log2_self.le
          _ = 2 ^ (52 + (n.log2 + 1)) := (pow_add _ _ _).symm
          _ ≤ 2 ^ (m.log2 + k) := Nat.pow_le_pow_right (by norm_num) (by omega)
          _ = 2 ^ m.log2 * 2 ^ k := pow_add _ _ _
          _ ≤ m * 2 ^ k := by
              gcongr
              exact Nat.log2_self_le hm
          _ = m <<< k := (Nat.shiftLeft_eq _ _).symm
      have hdiv : 2 ^ 52 ≤ (m <<< k) / n := (Nat.le_div_iff_mul_le (Nat.pos_of_ne_zero hn)).2 hpow
      exact (Nat.le_log2 (by omega)).2 hdiv
    omega

/-- The quotient that a division computes is fine enough to be rounded. -/
theorem fits_quotient {m n : ℕ} (hm : m ≠ 0) (hn : n ≠ 0) :
    Fits (divCore Format.binary64 m 0 n 0).1 (divCore Format.binary64 m 0 n 0).2.1
      (divCore Format.binary64 m 0 n 0).2.2 (m / n) := by
  obtain ⟨k, hk⟩ : ∃ k : ℕ, (-k : ℤ) = min 0 (max ((m.log2 : ℤ) - n.log2 - 53) (-1074)) :=
    ⟨(-min 0 (max ((m.log2 : ℤ) - n.log2 - 53) (-1074))).toNat, by omega⟩
  have hcore : divCore Format.binary64 m 0 n 0 =
      ((m <<< k) / n, (-k : ℤ), accuracyOfFraction ((m <<< k) % n) n) := by
    have htarget : min ((0 : ℤ) - 0) (Format.binary64.targetExponent
        (totalExponent m 0 - totalExponent n 0)) = -k := by
      simp only [hk, Format.targetExponent, totalExponent, Format.mantissaBits, Format.minExponent]
      omega
    have hshift : ((0 : ℤ) - 0 - -k).toNat = k := by omega
    simp only [divCore, htarget, hshift]
  rw [hcore]
  exact fits_shifted_quotient hm hn (by omega)

end Offside.Rounding

namespace Offside.Decimal

open Float.Model Float.Model.UnpackedFloat Rounding

def value (d : Decimal) : ℚ := d.mantissa * 10 ^ d.exponent

theorem value_of_nonneg (m k : ℕ) : value ⟨m, k⟩ = m * (10 ^ k : ℕ) := by
  simp [value]

theorem value_of_nonpos (m k : ℕ) : value ⟨m, -k⟩ = m / (10 ^ k : ℕ) := by
  simp [value, div_eq_mul_inv]

theorem exists_fits {d : Decimal} (hd : d.mantissa ≠ 0) : ∃ m e a, Fits m e a d.value := by
  obtain ⟨m, e⟩ := d
  have hten (k : ℕ) : 10 ^ k ≠ 0 := by positivity
  rcases Int.eq_nat_or_neg e with ⟨k, rfl | rfl⟩
  · have hfits := fits_product hd (hten k)
    rw [← value_of_nonneg] at hfits
    exact ⟨_, _, _, hfits⟩
  · have hfits := fits_quotient hd (hten k)
    rw [← value_of_nonpos] at hfits
    exact ⟨_, _, _, hfits⟩

theorem model_pack_congr {f g : UnpackedFloat}
    (h : UnpackedFloat.pack Format.binary64 f = UnpackedFloat.pack Format.binary64 g) :
    Float.Model.pack f = Float.Model.pack g := by
  simp only [Float.Model.pack, h]

theorem le_value_of_large {m : ℕ} {e : ℤ} (hm : m ≠ 0) (he : 1024 ≤ e) :
    (2 : ℚ) ^ (1024 : ℤ) ≤ value ⟨m, e⟩ := by
  have hone : (1 : ℚ) ≤ m := by exact_mod_cast Nat.one_le_iff_ne_zero.2 hm
  calc (2 : ℚ) ^ (1024 : ℤ) ≤ 2 ^ e := zpow_le_zpow_right₀ (by norm_num) he
    _ ≤ 10 ^ e := zpow_le_zpow_left₀ (by omega) (by norm_num) (by norm_num)
    _ ≤ m * 10 ^ e := le_mul_of_one_le_left (by positivity) hone

theorem value_lt_of_small {m : ℕ} {e : ℤ} (he : e < -(2048 + m.log2)) :
    value ⟨m, e⟩ < (2 : ℚ) ^ (-1075 : ℤ) := by
  have hm : (m : ℚ) < 2 ^ (m.log2 + 1 : ℤ) := by exact_mod_cast Nat.lt_log2_self
  have hten : (10 : ℚ) ^ e ≤ 2 ^ e := by
    obtain ⟨k, rfl⟩ : ∃ k : ℕ, e = -k := ⟨(-e).toNat, by omega⟩
    rw [zpow_neg, zpow_neg, zpow_natCast, zpow_natCast]
    gcongr
    norm_num
  calc (m : ℚ) * 10 ^ e ≤ m * 2 ^ e := by gcongr
    _ < 2 ^ (m.log2 + 1 : ℤ) * 2 ^ e := by gcongr
    _ = 2 ^ (m.log2 + 1 + e : ℤ) := (zpow_add₀ (by norm_num) _ _).symm
    _ ≤ 2 ^ (-1075 : ℤ) := zpow_le_zpow_right₀ (by norm_num) (by omega)

/-- A decimal is read as what its value rounds to, however the value is written. -/
theorem toFloat_of_fits {d : Decimal} (hd : d.mantissa ≠ 0) {m : ℕ} {e : ℤ} {a : Accuracy}
    (h : Fits m e a d.value) :
    d.toFloat = .ofModel (.pack (roundWithAccuracy Format.binary64 .positive m e a)) := by
  obtain ⟨n, p⟩ := d
  have hn : n ≠ 0 := hd
  have hten (k : ℕ) : 10 ^ k ≠ 0 := by positivity
  refine congrArg Float.ofModel (model_pack_congr ?_)
  change UnpackedFloat.pack _ (UnpackedFloat.ofScientific Format.binary64 n p) = _
  rw [UnpackedFloat.ofScientific, dif_neg hn]
  have hlimit : (2 : ℤ) ^ Format.binary64.exponentBits = 2048 := rfl
  rw [hlimit]
  split
  · exact (h.pack_eq_infinity (le_value_of_large hn (by omega)) .positive).symm
  split
  · rw [h.round_eq_zero (value_lt_of_small (by omega)) .positive]
  split
  · obtain ⟨k, rfl⟩ : ∃ k : ℕ, p = k := ⟨p.toNat, by omega⟩
    rw [value_of_nonneg] at h
    exact congrArg _ ((fits_product hn (hten k)).round_congr h .positive)
  · obtain ⟨k, rfl⟩ : ∃ k : ℕ, p = -k := ⟨(-p).toNat, by omega⟩
    rw [value_of_nonpos] at h
    have hk : (- -(k : ℤ)).toNat = k := by omega
    simp only [hk]
    exact congrArg _ ((fits_quotient hn (hten k)).round_congr h .positive)

/-- The double that a decimal stands for depends on its value alone. -/
theorem toFloat_congr {d d' : Decimal} (hd : d.mantissa ≠ 0) (hd' : d'.mantissa ≠ 0)
    (h : d.value = d'.value) : d.toFloat = d'.toFloat := by
  obtain ⟨m, e, a, hfits⟩ := exists_fits hd
  rw [toFloat_of_fits hd hfits, toFloat_of_fits hd' (h ▸ hfits)]

end Offside.Decimal
