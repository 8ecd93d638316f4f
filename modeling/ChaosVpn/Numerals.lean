import Mathlib.Data.List.Induction
import ChaosVpn.CStrings

/-! Decimal numerals as they are written and read back. -/

namespace ChaosVpn.Numerals
open CStrings

theorem isDigit_iff {d : UInt8} : isDigit d = true ↔ 48 ≤ d.toNat ∧ d.toNat ≤ 57 := by
  simp [isDigit, UInt8.le_iff_toNat_le]

theorem strAlldig_iff {s : Bytes} : strAlldig s = true ↔ s ≠ [] ∧ ∀ d ∈ s, isDigit d = true := by
  simp [strAlldig]

theorem digitsValue_append_digit (ds : Bytes) (d : UInt8) :
    digitsValue (ds ++ [d]) = 10 * digitsValue ds + (d.toNat - 48) := by
  simp [digitsValue]

theorem digitsValue_lt {ds : Bytes} (h : ∀ d ∈ ds, isDigit d = true) :
    digitsValue ds < Nat.pow 10 ds.length := by
  change _ < 10 ^ ds.length
  induction ds using List.reverseRecOn with
  | nil => simp [digitsValue]
  | append_singleton ds d ih =>
    have hd := (isDigit_iff.mp (h d (by simp))).2
    have hds := ih fun c hc => h c (by simp [hc])
    rw [digitsValue_append_digit, List.length_append, List.length_singleton, Nat.pow_succ]
    omega

/-- A numeral is read to its end, and its value is cut at the largest long. -/
theorem strtol_allDigits {ds : Bytes} (hne : ds ≠ []) (hds : ∀ d ∈ ds, isDigit d = true) :
    strtol ds = (min (digitsValue ds : Int) longMax, []) := by
  obtain ⟨d, ds', rfl⟩ := List.exists_cons_of_ne_nil hne
  have hd := hds d (by simp)
  have hskip : strSkipSpaces (d :: ds') = d :: ds' := by
    simp [strSkipSpaces, isSpace_of_isDigit hd]
  have htake : (d :: ds').takeWhile isDigit = d :: ds' := takeWhile_all hds
  have hdrop : (d :: ds').dropWhile isDigit = [] := dropWhile_all hds
  simp only [strtol, hskip, takeSign_of_isDigit hd, htake, hdrop, List.isEmpty_cons,
    Bool.false_eq_true, if_false]

/-- A numeral that fits a long has its value. -/
theorem strtol_digits {ds : Bytes} (hne : ds ≠ []) (hds : ∀ d ∈ ds, isDigit d = true)
    (hlength : ds.length ≤ 18) : strtol ds = ((digitsValue ds : Int), []) := by
  have hbound : _ < 10 ^ ds.length := digitsValue_lt hds
  have hpow : 10 ^ ds.length ≤ 10 ^ 18 := Nat.pow_le_pow_right (by decide) hlength
  have hlong : (digitsValue ds : Int) ≤ longMax := by
    unfold longMax
    omega
  rw [strtol_allDigits hne hds, Int.min_eq_left hlong]

/-! The numerals of `%d` -/

theorem decimal_ne_nil (n : Nat) : decimal n ≠ [] := by
  simp [decimal, Nat.toDigits_ne_nil]

theorem toNat_ofNat_digitChar {n : Nat} (h : n < 10) :
    (UInt8.ofNat n.digitChar.toNat).toNat = 48 + n := by
  have hdigits : ∀ n < 10, (UInt8.ofNat n.digitChar.toNat).toNat = 48 + n := by decide
  exact hdigits n h

theorem decimal_step {n : Nat} (h : 10 ≤ n) :
    decimal n = decimal (n / 10) ++ [UInt8.ofNat (n % 10).digitChar.toNat] := by
  rw [decimal, Nat.toDigits_of_base_le (by decide) h, List.map_append]
  rfl

theorem decimal_small {n : Nat} (h : n < 10) : decimal n = [UInt8.ofNat n.digitChar.toNat] := by
  rw [decimal, Nat.toDigits_of_lt_base h]
  rfl

theorem isDigit_of_mem_decimal {n : Nat} {d : UInt8} (h : d ∈ decimal n) : isDigit d = true := by
  induction n using Nat.strongRecOn with
  | ind n ih =>
    by_cases hn : n < 10
    · rw [decimal_small hn, List.mem_singleton] at h
      rw [isDigit_iff, h, toNat_ofNat_digitChar hn]
      omega
    · rw [decimal_step (by omega), List.mem_append, List.mem_singleton] at h
      rcases h with h | h
      · exact ih (n / 10) (by omega) h
      · rw [isDigit_iff, h, toNat_ofNat_digitChar (by omega)]
        omega

theorem digitsValue_decimal (n : Nat) : digitsValue (decimal n) = n := by
  induction n using Nat.strongRecOn with
  | ind n ih =>
    by_cases hn : n < 10
    · rw [decimal_small hn, ← List.nil_append [_], digitsValue_append_digit,
        toNat_ofNat_digitChar hn]
      simp [digitsValue]
    · rw [decimal_step (by omega), digitsValue_append_digit, ih (n / 10) (by omega),
        toNat_ofNat_digitChar (by omega)]
      omega

theorem length_decimal_le {n k : Nat} (hk : 0 < k) (h : n < Nat.pow 10 k) :
    (decimal n).length ≤ k := by
  rw [decimal, List.length_map]
  exact (Nat.length_toDigits_le_iff (by decide) hk).mpr h

theorem head_decimal {n : Nat} (hpos : 0 < n) : ∃ d ds, decimal n = d :: ds ∧ d ≠ 48 := by
  induction n using Nat.strongRecOn with
  | ind n ih =>
    by_cases hn : n < 10
    · refine ⟨_, [], decimal_small hn, fun hzero => ?_⟩
      have hvalue := congrArg UInt8.toNat hzero
      rw [toNat_ofNat_digitChar hn] at hvalue
      change 48 + n = 48 at hvalue
      omega
    · obtain ⟨d, ds, hdecimal, hd⟩ := ih (n / 10) (by omega) (by omega)
      exact ⟨d, _, by rw [decimal_step (by omega), hdecimal]; rfl, hd⟩

theorem hexDigit_of_isDigit {d : UInt8} (h : isDigit d = true) : hexDigit d = d.toNat - 48 := by
  rw [hexDigit, if_pos h]

/-- A numeral without a leading zero is read to base 10. -/
theorem strtoul_decimal {n : Nat} (hpos : 0 < n) (hlong : n ≤ ulongMax) : strtoul (decimal n) = n := by
  have hvalue := digitsValue_decimal n
  have hdigits : ∀ d ∈ decimal n, isDigit d = true := fun d hd => isDigit_of_mem_decimal hd
  obtain ⟨d, ds, hdecimal, hd⟩ := head_decimal hpos
  rw [hdecimal] at hvalue hdigits ⊢
  have hskip : strSkipSpaces (d :: ds) = d :: ds := by
    simp [strSkipSpaces, isSpace_of_isDigit (hdigits d (by simp))]
  have hbase : detectBase (d :: ds) = (10, d :: ds) := by
    unfold detectBase
    split <;> simp_all
  have htake : (d :: ds).takeWhile (hexDigit · < 10) = d :: ds := by
    refine takeWhile_all fun c hc => ?_
    have hc := hdigits c hc
    rw [hexDigit_of_isDigit hc, decide_eq_true_eq]
    have := isDigit_iff.mp hc
    omega
  have hfold : ∀ v, (d :: ds).foldl (fun v c => 10 * v + hexDigit c) v =
      (d :: ds).foldl (fun v c => 10 * v + (c.toNat - 48)) v := by
    intro v
    refine List.foldl_ext _ _ v fun v c hc => ?_
    rw [hexDigit_of_isDigit (hdigits c hc)]
  simp only [strtoul, hskip, takeSign_of_isDigit (hdigits d (by simp)), hbase, htake, hfold]
  rw [← digitsValue, hvalue, if_neg (Nat.not_lt.mpr hlong)]
  rfl

end ChaosVpn.Numerals
