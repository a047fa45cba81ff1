import Mathlib.Data.List.DropRight
import Mathlib.Data.List.TakeWhile
import Offside.Decimal.Notation
import Offside.Decimal.Reading
import Offside.Proofs.Decimal.Fields

/-!
The text of a double is read as that double. The digits that are written have the value of the
decimal they come from, whatever zeros were dropped or filled in, and the decimal of a double is
read as the double itself: either it was tried, or it is the exact one.
-/
namespace Offside.Decimal

open Fields NumberFormat

theorem ofDigits_eq (ds : List Char) : ofDigits ds = Nat.ofDigitChars 10 ds 0 := rfl

theorem ofDigits_append_zeros (ds : List Char) (n : ℕ) :
    ofDigits (ds ++ List.replicate n '0') = ofDigits ds * 10 ^ n := by
  rw [ofDigits_eq, Nat.ofDigitChars_append, Nat.ofDigitChars_replicate_zero, mul_comm, ofDigits_eq]

theorem ofDigits_zeros_append (n : ℕ) (ds : List Char) :
    ofDigits (List.replicate n '0' ++ ds) = ofDigits ds := by
  rw [ofDigits_eq, Nat.ofDigitChars_append, Nat.ofDigitChars_replicate_zero, mul_zero, ofDigits_eq]

theorem readUnsigned?_whole {ws : List Char} (hne : ws ≠ []) (hws : ∀ c ∈ ws, c.isDigit) :
    readUnsigned? ws = some ⟨ofDigits ws, 0⟩ := by
  have htake : ws.takeWhile Char.isDigit = ws := List.takeWhile_eq_self_iff.2 hws
  have hdrop : ws.dropWhile Char.isDigit = [] := List.dropWhile_eq_nil_iff.2 hws
  simp [readUnsigned?, htake, hdrop, hne, readExponent?]

theorem readUnsigned?_point {ws fs : List Char} (hne : ws ++ fs ≠ []) (hws : ∀ c ∈ ws, c.isDigit)
    (hfs : ∀ c ∈ fs, c.isDigit) :
    readUnsigned? (ws ++ '.' :: fs) = some ⟨ofDigits (ws ++ fs), -fs.length⟩ := by
  have htake : (ws ++ '.' :: fs).takeWhile Char.isDigit = ws := by
    rw [List.takeWhile_append_of_pos hws, List.takeWhile_cons_of_neg (by decide), List.append_nil]
  have hdrop : (ws ++ '.' :: fs).dropWhile Char.isDigit = '.' :: fs := by
    rw [List.dropWhile_append_of_pos hws, List.dropWhile_cons_of_neg (by decide)]
  have htake' : fs.takeWhile Char.isDigit = fs := List.takeWhile_eq_self_iff.2 hfs
  have hdrop' : fs.dropWhile Char.isDigit = [] := List.dropWhile_eq_nil_iff.2 hfs
  simp [readUnsigned?, htake, hdrop, htake', hdrop', hne, readExponent?]

/-- The significant digits are all digits but zeros at the end. -/
theorem exists_significant (d : Decimal) :
    ∃ z, Nat.toDigits 10 d.mantissa = significant d ++ List.replicate z '0' := by
  have hzeros : ∀ c ∈ (Nat.toDigits 10 d.mantissa).rtakeWhile (· == '0'), c = '0' := by
    intro c hc
    have heq := List.mem_rtakeWhile_imp (p := (· == '0')) hc
    exact beq_iff_eq.1 heq
  refine ⟨((Nat.toDigits 10 d.mantissa).rtakeWhile (· == '0')).length, ?_⟩
  rw [← List.eq_replicate_of_mem hzeros]
  exact List.rdropWhile_append_rtakeWhile.symm

theorem isDigit_significant (d : Decimal) : ∀ c ∈ significant d, c.isDigit := by
  obtain ⟨z, hz⟩ := exists_significant d
  intro c hc
  refine Nat.isDigit_of_mem_toDigits (b := 10) (n := d.mantissa) (by decide) (by decide) ?_
  rw [hz]
  exact List.mem_append_left _ hc

theorem isDigit_zeros (n : ℕ) : ∀ c ∈ List.replicate n '0', c.isDigit := by
  intro c hc
  rw [List.eq_of_mem_replicate hc]
  rfl

/-- Digits around a point, wherever it stands, are read with the value that the point gives. -/
theorem readUnsigned?_place {ds : List Char} (hne : ds ≠ []) (hds : ∀ c ∈ ds, c.isDigit)
    (hpos : ofDigits ds ≠ 0) (e : ℤ) :
    ∃ d, readUnsigned? (plain.place ds (ds.length + e)) = some d ∧ d.mantissa ≠ 0 ∧
      d.value = ofDigits ds * 10 ^ e := by
  have hlength : 0 < ds.length := List.length_pos_of_ne_nil hne
  rw [place]
  split
  · obtain ⟨n, hn⟩ : ∃ n, n = (-(ds.length + e)).toNat := ⟨_, rfl⟩
    have hfraction : ∀ c ∈ List.replicate n '0' ++ ds, c.isDigit :=
      List.forall_mem_append.2 ⟨isDigit_zeros n, hds⟩
    have hread : readUnsigned? (['0'] ++ '.' :: (List.replicate n '0' ++ ds)) =
        some ⟨ofDigits (['0'] ++ (List.replicate n '0' ++ ds)),
          -(List.replicate n '0' ++ ds).length⟩ :=
      readUnsigned?_point (by simp) (isDigit_zeros 1) hfraction
    have hdigits : ofDigits (['0'] ++ (List.replicate n '0' ++ ds)) = ofDigits ds :=
      ofDigits_zeros_append (n + 1) ds
    have hexponent : (-(List.replicate n '0' ++ ds).length : ℤ) = e := by
      rw [List.length_append, List.length_replicate]
      omega
    rw [hdigits, hexponent] at hread
    rw [← hn]
    exact ⟨_, hread, hpos, rfl⟩
  split
  · obtain ⟨n, hn⟩ : ∃ n, n = (ds.length + e).toNat := ⟨_, rfl⟩
    have hread : readUnsigned? (ds.take n ++ '.' :: ds.drop n) =
        some ⟨ofDigits (ds.take n ++ ds.drop n), -(ds.drop n).length⟩ :=
      readUnsigned?_point (by rwa [List.take_append_drop])
        (fun c hc => hds c (List.mem_of_mem_take hc)) (fun c hc => hds c (List.mem_of_mem_drop hc))
    have hexponent : (-(ds.drop n).length : ℤ) = e := by
      rw [List.length_drop]
      omega
    rw [List.take_append_drop, hexponent] at hread
    rw [← hn]
    exact ⟨_, hread, hpos, rfl⟩
  · obtain ⟨n, hn⟩ : ∃ n, n = (ds.length + e).toNat - ds.length := ⟨_, rfl⟩
    have hread : readUnsigned? (ds ++ List.replicate n '0') =
        some ⟨ofDigits (ds ++ List.replicate n '0'), 0⟩ :=
      readUnsigned?_whole (by simp [hne]) (List.forall_mem_append.2 ⟨hds, isDigit_zeros n⟩)
    have hexponent : e = n := by omega
    rw [ofDigits_append_zeros] at hread
    rw [← hn]
    refine ⟨⟨ofDigits ds * 10 ^ n, 0⟩, ?_, Nat.mul_ne_zero hpos (by positivity), ?_⟩
    · rw [← hread]
      exact congrArg _ (List.append_nil _)
    · rw [value, hexponent]
      simp

/-- However a positive decimal is laid out around its point, it is read as a decimal of the same
value. -/
theorem readUnsigned?_decimal {d : Decimal} (hd : d.mantissa ≠ 0) :
    ∃ d', readUnsigned? (plain.decimal d) = some d' ∧ d'.mantissa ≠ 0 ∧ d'.value = d.value := by
  obtain ⟨z, hz⟩ := exists_significant d
  have hmantissa : d.mantissa = ofDigits (significant d) * 10 ^ z := by
    rw [← ofDigits_append_zeros, ← hz, ofDigits_eq, Nat.ofDigitChars_ten_toDigits]
  have hpos : ofDigits (significant d) ≠ 0 := by
    intro hzero
    rw [hzero, zero_mul] at hmantissa
    exact hd hmantissa
  have hne : significant d ≠ [] := by
    intro hnil
    rw [hnil] at hpos
    exact hpos rfl
  have hcount : (digitCount d.mantissa : ℤ) + d.exponent =
      (significant d).length + (z + d.exponent) := by
    rw [digitCount, hz, List.length_append, List.length_replicate]
    push_cast
    ring
  obtain ⟨d', hread, hmantissa', hvalue⟩ :=
    readUnsigned?_place hne (isDigit_significant d) hpos (z + d.exponent)
  refine ⟨d', ?_, hmantissa', ?_⟩
  · rw [← hread, ← hcount]
    rfl
  · rw [hvalue, value, hmantissa, zpow_add₀ (by norm_num), zpow_natCast]
    push_cast
    ring

theorem significand_ne_zero {x : Float} (hsign : signBit x = false) (hne : x ≠ 0.0) :
    significand (biased x) (fraction x) ≠ 0 := by
  intro hzero
  have hb : biased x = 0 := by
    by_contra hb
    rw [significand_normal hb] at hzero
    omega
  rw [hb, significand_zero] at hzero
  exact hne (ext_fields hsign rfl hb hzero)

/-- The decimal of a positive finite double is read as that double. -/
theorem toFloat_shortest {x : Float} (hsign : signBit x = false) (hfinite : biased x ≠ 2047)
    (hne : x ≠ 0.0) : (shortest x).toFloat = x := by
  rw [shortest]
  simp only
  generalize hfound : List.findSome? _ _ = found
  cases found with
  | none => exact toFloat_exact hsign hfinite (significand_ne_zero hsign hne)
  | some d =>
    obtain ⟨n, -, hn⟩ := List.exists_of_findSome?_eq_some hfound
    have hd := List.find?_some hn
    exact of_decide_eq_true hd

theorem shortest_ne_zero {x : Float} (hsign : signBit x = false) (hfinite : biased x ≠ 2047)
    (hne : x ≠ 0.0) : (shortest x).mantissa ≠ 0 := by
  intro hzero
  have hfloat := toFloat_shortest hsign hfinite hne
  generalize shortest x = d at hzero hfloat
  obtain ⟨m, e⟩ := d
  obtain rfl : m = 0 := hzero
  exact hne hfloat.symm

/-- What is read as a number without sign has no sign. -/
theorem read?_of_readUnsigned? {cs : List Char} {d : Decimal} (h : readUnsigned? cs = some d) :
    read? (String.ofList cs) = some d.toFloat := by
  have hspan : spanSign cs = (false, cs) := by
    unfold spanSign
    split
    · simp [readUnsigned?] at h
    · simp [readUnsigned?] at h
    · rfl
  rw [read?, String.toList_ofList, hspan]
  simp [h]

/-- The text of a double without sign is read as the double. -/
theorem read?_magnitude {x : Float} (hn : x.isNaN = false) (hsign : signBit x = false) :
    read? (String.ofList (plain.magnitude x)) = some x := by
  rw [NumberFormat.magnitude]
  split
  · rename_i hinf
    obtain ⟨hb, hf⟩ := (isInf_iff x).1 hinf
    have hx : x = 1.0 / 0.0 := ext_fields hsign rfl hb hf
    rw [hx]
    rfl
  split
  · rename_i hzero
    rw [hzero]
    rfl
  · rename_i hinf hne
    have hfinite : biased x ≠ 2047 := by
      intro hb
      by_cases hf : fraction x = 0
      · exact hinf ((isInf_iff x).2 ⟨hb, hf⟩)
      · rw [(isNaN_iff x).2 ⟨hb, hf⟩] at hn
        cases hn
    have hmantissa := shortest_ne_zero hsign hfinite hne
    obtain ⟨d, hread, hd, hvalue⟩ := readUnsigned?_decimal hmantissa
    rw [read?_of_readUnsigned? hread, toFloat_congr hd hmantissa hvalue,
      toFloat_shortest hsign hfinite hne]

end Offside.Decimal
