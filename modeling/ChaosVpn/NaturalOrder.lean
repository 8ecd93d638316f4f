import ChaosVpn.Numerals
import ChaosVpn.StrNatCmp
import Mathlib.Data.List.TakeWhile

/-! The order that strnatcmp.c makes of texts. Every text has a key, a list of integers,
and the texts are in the order of their keys. -/

namespace ChaosVpn.NaturalOrder
open CStrings Numerals StrNatCmp

def toUpper (b : UInt8) : UInt8 := if 97 ≤ b && b ≤ 122 then b - 32 else b

/-- The byte as it is compared outside of numbers. -/
def foldChar (foldCase : Bool) (b : UInt8) : Int := natChar (if foldCase then toUpper b else b)

def strnatcmp0 (foldCase : Bool) : Bytes → Bytes → Int
  | [], b =>
    match strSkipSpaces b with
    | [] => 0
    | cb :: _ => if 0 < foldChar foldCase cb then -1 else 1
  | ca :: a, b =>
    if isSpace ca then strnatcmp0 foldCase a b
    else
      let b := strSkipSpaces b
      let result := compareRuns (ca :: a) b
      if result ≠ 0 then result
      else
        match b with
        | [] => if foldChar foldCase ca < 0 then -1 else 1
        | cb :: b =>
          if foldChar foldCase ca < foldChar foldCase cb then -1
          else if foldChar foldCase cb < foldChar foldCase ca then 1
          else strnatcmp0 foldCase a b

def strnatcasecmp (a b : Bytes) : Int := strnatcmp0 true a b

theorem strnatcmp0_false (a b : Bytes) : strnatcmp0 false a b = strnatcmp a b := by
  induction a generalizing b with
  | nil => rfl
  | cons ca a ih =>
    cases hb : strSkipSpaces b <;>
      simp [strnatcmp0, strnatcmp, ih, foldChar, hb]

/-! The order of keys -/

def intOrder (x y : Int) : Ordering := if x < y then .lt else if y < x then .gt else .eq

instance : Std.TransCmp intOrder where
  eq_swap {x y} := by
    unfold intOrder
    split_ifs <;> first | rfl | omega
  isLE_trans {x y z} hxy hyz := by
    unfold intOrder at *
    split_ifs at * <;> first | rfl | omega

instance : Std.LawfulEqCmp intOrder where
  eq_of_compare {x y} h := by
    unfold intOrder at h
    split_ifs at h
    omega

theorem intOrder_eq {x y : Int} : intOrder x y = .eq ↔ x = y := by
  unfold intOrder
  split_ifs <;> simp <;> omega

abbrev keyOrder : List Int → List Int → Ordering := List.compareLex intOrder

def signOf : Ordering → Int
  | .lt => -1
  | .eq => 0
  | .gt => 1

/-! The key of a text -/

/-- A number that starts with a zero is compared digit by digit, and comes before the
others; these are compared by their length first. -/
def runKey (digits : Bytes) : List Int :=
  if digits.head? = some 48 then 48 :: (digits.map natChar ++ [0])
  else 49 :: (digits.length : Int) :: digits.map natChar

def natKey (foldCase : Bool) : Bytes → List Int
  | [] => [0]
  | c :: s =>
    if isSpace c then natKey foldCase s
    else if isDigit c then
      runKey ((c :: s).takeWhile isDigit) ++ natKey foldCase ((c :: s).dropWhile isDigit)
    else foldChar foldCase c :: natKey foldCase s
termination_by s => s.length
decreasing_by
  · simp
  · rename_i hdigit
    simp only [List.dropWhile_cons, hdigit, if_true, List.length_cons]
    exact Nat.lt_succ_of_le (List.dropWhile_sublist isDigit).length_le
  · simp

variable {foldCase : Bool} {a b s ds es : Bytes} {c x y : UInt8}

theorem natKey_nil : natKey foldCase [] = [0] := by rw [natKey]

theorem natKey_space (h : isSpace c = true) : natKey foldCase (c :: s) = natKey foldCase s := by
  rw [natKey, if_pos h]

theorem natKey_other (hspace : isSpace c = false) (hdigit : isDigit c = false) :
    natKey foldCase (c :: s) = foldChar foldCase c :: natKey foldCase s := by
  rw [natKey, if_neg (by simp [hspace]), if_neg (by simp [hdigit])]

theorem natKey_digit (h : isDigit c = true) :
    natKey foldCase (c :: s) =
      runKey (c :: s.takeWhile isDigit) ++ natKey foldCase (s.dropWhile isDigit) := by
  rw [natKey, if_neg (by simp [isSpace_of_isDigit h]), if_pos h, List.takeWhile_cons_of_pos h,
    List.dropWhile_cons_of_pos h]

theorem natKey_skip (s : Bytes) : natKey foldCase (strSkipSpaces s) = natKey foldCase s := by
  induction s with
  | nil => rfl
  | cons c s ih =>
    by_cases h : isSpace c = true
    · rw [strSkipSpaces, List.dropWhile_cons_of_pos h, natKey_space h]
      exact ih
    · rw [strSkipSpaces, List.dropWhile_cons_of_neg h]

/-- The key behind the first digit of a number still starts with the rest of it. -/
theorem natKey_behind (s : Bytes) :
    natKey foldCase s = (if s.takeWhile isDigit = [] then [] else runKey (s.takeWhile isDigit)) ++
      natKey foldCase (s.dropWhile isDigit) := by
  cases s with
  | nil => rfl
  | cons c s =>
    by_cases h : isDigit c = true
    · rw [natKey_digit h, List.takeWhile_cons_of_pos h, List.dropWhile_cons_of_pos h,
        if_neg (List.cons_ne_nil _ _)]
    · rw [List.takeWhile_cons_of_neg h, List.dropWhile_cons_of_neg h, if_pos rfl, List.nil_append]

/-! Digits -/

theorem natChar_digit (h : isDigit c = true) : natChar c = c.toNat ∧ 48 ≤ c.toNat ∧ c.toNat ≤ 57 := by
  have hbounds := isDigit_iff.mp h
  refine ⟨?_, hbounds⟩
  rw [natChar, BitVec.toInt_eq_toNat_of_lt]
  · rfl
  · change 2 * c.toNat < 256
    omega

theorem natChar_lt_iff (hx : isDigit x = true) (hy : isDigit y = true) :
    natChar x < natChar y ↔ x < y := by
  rw [(natChar_digit hx).1, (natChar_digit hy).1, UInt8.lt_iff_toNat_lt]
  exact Int.ofNat_lt

theorem keyOrder_self (k : List Int) : keyOrder k k = .eq :=
  (inferInstance : Std.ReflCmp keyOrder).compare_self

theorem keyOrder_eq {k l : List Int} (h : keyOrder k l = .eq) : k = l :=
  (inferInstance : Std.LawfulEqCmp keyOrder).eq_of_compare h

theorem keyOrder_cons (x y : Int) (k l : List Int) :
    keyOrder (x :: k) (y :: l) = (intOrder x y).then (keyOrder k l) := List.compareLex_cons_cons

theorem intOrder_lt {x y : Int} (h : x < y) : intOrder x y = .lt := by rw [intOrder, if_pos h]

theorem intOrder_gt {x y : Int} (h : y < x) : intOrder x y = .gt := by
  rw [intOrder, if_neg (by omega), if_pos h]

theorem intOrder_self (x : Int) : intOrder x x = .eq := intOrder_eq.mpr rfl

abbrev digitsKey (s : Bytes) : List Int := (s.takeWhile isDigit).map natChar

/-- A text is at no digit, or at one with the rest of the number behind it. -/
theorem digits_cases (s : Bytes) :
    (startsWithDigit s = false ∧ digitsKey s = []) ∨
      ∃ c rest, s = c :: rest ∧ isDigit c = true ∧ digitsKey s = natChar c :: digitsKey rest := by
  cases s with
  | nil => exact .inl ⟨rfl, rfl⟩
  | cons c rest =>
    by_cases h : isDigit c = true
    · exact .inr ⟨c, rest, rfl, h, by rw [digitsKey, List.takeWhile_cons_of_pos h, List.map_cons]⟩
    · exact .inl ⟨by simpa [startsWithDigit] using h,
        by rw [digitsKey, List.takeWhile_cons_of_neg h, List.map_nil]⟩

theorem compareLeft_stop (h : startsWithDigit a = false) :
    compareLeft a b = if startsWithDigit b then -1 else 0 := by
  cases a with
  | nil => rfl
  | cons x a =>
    have hx : isDigit x = false := h
    simp [compareLeft, hx]

theorem compareLeft_longer (hx : isDigit x = true) (h : startsWithDigit b = false) :
    compareLeft (x :: a) b = 1 := by
  cases b with
  | nil => simp [compareLeft, hx]
  | cons y b =>
    have hy : isDigit y = false := h
    simp [compareLeft, hx, hy]

theorem compareRight_longer {bias : Int} (hx : isDigit x = true) (h : startsWithDigit b = false) :
    compareRight bias (x :: a) b = 1 := by
  cases b with
  | nil => simp [compareRight, hx]
  | cons y b =>
    have hy : isDigit y = false := h
    simp [compareRight, hx, hy]

theorem compareRight_stop {bias : Int} (h : startsWithDigit a = false) :
    compareRight bias a b = if startsWithDigit b then -1 else bias := by
  cases a with
  | nil => rfl
  | cons x a =>
    have hx : isDigit x = false := h
    simp [compareRight, hx]

theorem natChar_pos (h : isDigit c = true) : 0 < natChar c := by
  have hchar := natChar_digit h
  omega

theorem keyOrder_digit {k l : List Int} (hx : isDigit x = true) (hy : isDigit y = true) :
    keyOrder (natChar x :: k) (natChar y :: l) =
      if x < y then .lt else if y < x then .gt else keyOrder k l := by
  rw [keyOrder_cons, intOrder]
  simp only [natChar_lt_iff hx hy, natChar_lt_iff hy hx]
  split_ifs <;> rfl

/-- Two numbers with the zero behind them, which is less than any digit. -/
theorem keyOrder_terminated (a b : Bytes) :
    keyOrder (digitsKey a ++ [0]) (digitsKey b ++ [0]) =
      match startsWithDigit a, startsWithDigit b with
      | false, false => .eq
      | false, true => .lt
      | true, false => .gt
      | true, true => keyOrder (digitsKey a ++ [0]) (digitsKey b ++ [0]) := by
  rcases digits_cases a with ⟨ha, hkeyA⟩ | ⟨x, a', rfl, hx, hkeyA⟩ <;>
    rcases digits_cases b with ⟨hb, hkeyB⟩ | ⟨y, b', rfl, hy, hkeyB⟩
  · rw [hkeyA, hkeyB, ha, hb]
    rfl
  · have hstart : startsWithDigit (y :: b') = true := hy
    rw [hkeyA, hkeyB, ha, hstart, List.nil_append, List.cons_append, keyOrder_cons,
      intOrder_lt (natChar_pos hy)]
    rfl
  · have hstart : startsWithDigit (x :: a') = true := hx
    rw [hkeyA, hkeyB, hb, hstart, List.nil_append, List.cons_append, keyOrder_cons,
      intOrder_gt (natChar_pos hx)]
    rfl
  · have hstartA : startsWithDigit (x :: a') = true := hx
    have hstartB : startsWithDigit (y :: b') = true := hy
    rw [hstartA, hstartB]

theorem compareLeft_eq (a b : Bytes) :
    compareLeft a b = signOf (keyOrder (digitsKey a ++ [0]) (digitsKey b ++ [0])) := by
  induction a generalizing b with
  | nil =>
    rw [compareLeft_stop rfl, keyOrder_terminated]
    cases hb : startsWithDigit b <;> simp [startsWithDigit, signOf]
  | cons x a ih =>
    by_cases hx : isDigit x = true
    · rcases digits_cases b with ⟨hb, -⟩ | ⟨y, b, rfl, hy, hkey⟩
      · have hstart : startsWithDigit (x :: a) = true := hx
        rw [compareLeft_longer hx hb, keyOrder_terminated, hstart, hb]
        rfl
      · have hkeyA : digitsKey (x :: a) = natChar x :: digitsKey a := by
          rw [digitsKey, List.takeWhile_cons_of_pos hx, List.map_cons]
        rw [hkey, hkeyA, List.cons_append, List.cons_append, keyOrder_digit hx hy, compareLeft]
        simp only [hx, hy, Bool.not_true, Bool.false_eq_true, if_false, ih]
        split_ifs <;> rfl
    · have hstart : startsWithDigit (x :: a) = false := by simpa [startsWithDigit] using hx
      rw [compareLeft_stop hstart, keyOrder_terminated, hstart]
      cases hb : startsWithDigit b <;> simp [signOf]

/-- The bias is the first difference, which counts when the numbers are equally long. -/
theorem compareRight_eq (o : Ordering) (a b : Bytes) :
    compareRight (signOf o) a b =
      signOf ((intOrder (digitsKey a).length (digitsKey b).length).then
        (o.then (keyOrder (digitsKey a) (digitsKey b)))) := by
  induction a generalizing b o with
  | nil =>
    rw [compareRight_stop rfl]
    rcases digits_cases b with ⟨hb, hkey⟩ | ⟨y, b, rfl, hy, hkey⟩
    · rw [hb, hkey, show digitsKey [] = [] from rfl]
      cases o <;> rfl
    · have hstart : startsWithDigit (y :: b) = true := hy
      rw [hkey, hstart, show digitsKey [] = [] from rfl, intOrder_lt (by simp)]
      rfl
  | cons x a ih =>
    by_cases hx : isDigit x = true
    · have hkeyA : digitsKey (x :: a) = natChar x :: digitsKey a := by
        rw [digitsKey, List.takeWhile_cons_of_pos hx, List.map_cons]
      rcases digits_cases b with ⟨hb, hkey⟩ | ⟨y, b, rfl, hy, hkey⟩
      · rw [compareRight_longer hx hb, hkey, hkeyA, intOrder_gt (by simp)]
        rfl
      · have hlength : intOrder (digitsKey (x :: a)).length (digitsKey (y :: b)).length =
            intOrder (digitsKey a).length (digitsKey b).length := by
          rw [hkeyA, hkey, intOrder, intOrder]
          simp
        rw [hlength, hkeyA, hkey, keyOrder_digit hx hy, compareRight]
        simp only [hx, hy, Bool.not_true, Bool.false_eq_true, if_false]
        cases o with
        | lt => exact (if_pos (by decide)).trans (ih .lt b)
        | gt => exact (if_pos (by decide)).trans (ih .gt b)
        | eq =>
          rw [if_neg (by decide)]
          split_ifs
          · exact ih .lt b
          · exact ih .gt b
          · exact ih .eq b
    · have hstart : startsWithDigit (x :: a) = false := by simpa [startsWithDigit] using hx
      have hkeyA : digitsKey (x :: a) = [] := by
        rw [digitsKey, List.takeWhile_cons_of_neg hx, List.map_nil]
      rw [compareRight_stop hstart, hkeyA]
      rcases digits_cases b with ⟨hb, hkey⟩ | ⟨y, b, rfl, hy, hkey⟩
      · rw [hb, hkey]
        cases o <;> rfl
      · have hstartB : startsWithDigit (y :: b) = true := hy
        rw [hkey, hstartB, intOrder_lt (by simp)]
        rfl

/-! Numbers by their keys -/

theorem keyOrder_append_of_length {k₁ k₂ l₁ l₂ : List Int} (h : k₁.length = k₂.length) :
    keyOrder (k₁ ++ l₁) (k₂ ++ l₂) = (keyOrder k₁ k₂).then (keyOrder l₁ l₂) := by
  induction k₁ generalizing k₂ with
  | nil =>
    rw [List.length_nil, eq_comm, List.length_eq_zero_iff] at h
    subst h
    rfl
  | cons x k₁ ih =>
    cases k₂ with
    | nil => cases h
    | cons y k₂ =>
      rw [List.cons_append, List.cons_append, keyOrder_cons, keyOrder_cons, ih (by simpa using h),
        Ordering.then_assoc]

theorem keyOrder_append_terminated {k₁ k₂ l₁ l₂ : List Int} (h₁ : ∀ x ∈ k₁, 0 < x)
    (h₂ : ∀ x ∈ k₂, 0 < x) :
    keyOrder (k₁ ++ 0 :: l₁) (k₂ ++ 0 :: l₂) =
      (keyOrder (k₁ ++ [0]) (k₂ ++ [0])).then (keyOrder l₁ l₂) := by
  induction k₁ generalizing k₂ with
  | nil =>
    cases k₂ with
    | nil => rfl
    | cons y k₂ =>
      have hy := intOrder_lt (h₂ y (by simp))
      simp only [List.nil_append, List.cons_append, keyOrder_cons, hy, Ordering.lt_then]
  | cons x k₁ ih =>
    cases k₂ with
    | nil =>
      have hx := intOrder_gt (h₁ x (by simp))
      simp only [List.nil_append, List.cons_append, keyOrder_cons, hx, Ordering.gt_then]
    | cons y k₂ =>
      have hrest := ih (fun z hz => h₁ z (List.mem_cons_of_mem x hz))
        (fun z hz => h₂ z (List.mem_cons_of_mem y hz))
      simp only [List.cons_append, keyOrder_cons, hrest, Ordering.then_assoc]

theorem natChar_pos_of_mem (hds : ∀ d ∈ ds, isDigit d = true) : ∀ x ∈ ds.map natChar, 0 < x := by
  intro x hx
  obtain ⟨d, hd, rfl⟩ := List.mem_map.mp hx
  exact natChar_pos (hds d hd)

theorem keyOrder_runKey (hds : ∀ d ∈ ds, isDigit d = true) (hes : ∀ e ∈ es, isDigit e = true)
    (k l : List Int) :
    keyOrder (runKey ds ++ k) (runKey es ++ l) =
      (keyOrder (runKey ds) (runKey es)).then (keyOrder k l) := by
  unfold runKey
  split_ifs
  · simp only [List.cons_append, List.append_assoc, List.nil_append, keyOrder_cons, intOrder_self,
      Ordering.eq_then]
    exact keyOrder_append_terminated (natChar_pos_of_mem hds) (natChar_pos_of_mem hes)
  · rfl
  · rfl
  · simp only [List.cons_append, keyOrder_cons, intOrder_self, Ordering.eq_then]
    by_cases hlength : ds.length = es.length
    · rw [keyOrder_append_of_length (by simpa using hlength), Ordering.then_assoc]
    · rcases Nat.lt_or_gt_of_ne hlength with hlt | hgt
      · rw [intOrder_lt (Int.ofNat_lt.mpr hlt)]
        rfl
      · rw [intOrder_gt (Int.ofNat_lt.mpr hgt)]
        rfl

/-- Runs are compared as their keys are. -/
theorem compareRuns_eq (ha : startsWithDigit a = true) (hb : startsWithDigit b = true) :
    compareRuns a b =
      signOf (keyOrder (runKey (a.takeWhile isDigit)) (runKey (b.takeWhile isDigit))) := by
  rcases digits_cases a with ⟨hstop, -⟩ | ⟨x, a, rfl, hx, hkeyA⟩
  · cases ha.symm.trans hstop
  rcases digits_cases b with ⟨hstop, -⟩ | ⟨y, b, rfl, hy, hkeyB⟩
  · cases hb.symm.trans hstop
  have hheadA : ((x :: a).takeWhile isDigit).head? = some x := by
    rw [List.takeWhile_cons_of_pos hx, List.head?_cons]
  have hheadB : ((y :: b).takeWhile isDigit).head? = some y := by
    rw [List.takeWhile_cons_of_pos hy, List.head?_cons]
  simp only [compareRuns, ha, hb, Bool.and_self, if_true, runKey, hheadA, hheadB,
    List.head?_cons, Option.some.injEq, Bool.or_eq_true, decide_eq_true_eq]
  have habove : ∀ {c : UInt8}, isDigit c = true → c ≠ 48 → (48 : UInt8) < c := by
    intro c hc hne
    have hbounds := (natChar_digit hc).2.1
    refine UInt8.lt_iff_toNat_lt.mpr (Nat.lt_of_le_of_ne hbounds fun heq => hne ?_)
    exact UInt8.toNat_inj.mp heq.symm
  by_cases hzeroA : x = 48 <;> by_cases hzeroB : y = 48
  · subst hzeroA hzeroB
    rw [if_pos (.inl rfl), if_pos rfl, if_pos rfl, compareLeft_eq, keyOrder_cons, intOrder_self]
    rfl
  · subst hzeroA
    rw [if_pos (.inl rfl), if_pos rfl, if_neg hzeroB, compareLeft_eq, hkeyA, hkeyB, List.cons_append,
      List.cons_append, keyOrder_digit hx hy, if_pos (habove hy hzeroB)]
    rfl
  · subst hzeroB
    have hlt := habove hx hzeroA
    rw [if_pos (.inr rfl), if_neg hzeroA, if_pos rfl, compareLeft_eq, hkeyA, hkeyB, List.cons_append,
      List.cons_append, keyOrder_digit hx hy, if_neg (UInt8.lt_asymm hlt), if_pos hlt]
    rfl
  · rw [if_neg (not_or.mpr ⟨hzeroA, hzeroB⟩), if_neg hzeroA, if_neg hzeroB, keyOrder_cons,
      keyOrder_cons, intOrder_self, Ordering.eq_then]
    have hright := compareRight_eq .eq (x :: a) (y :: b)
    simp only [List.length_map, Ordering.eq_then] at hright
    exact hright

/-! Whole texts -/

theorem signOf_eq_zero {o : Ordering} : signOf o = 0 ↔ o = .eq := by
  cases o <;> simp [signOf]

theorem signOf_intOrder (x y : Int) :
    signOf (intOrder x y) = if x < y then -1 else if y < x then 1 else 0 := by
  unfold intOrder
  split_ifs <;> rfl

theorem natChar_inj : natChar x = natChar y ↔ x = y := by
  rw [natChar, natChar, BitVec.toInt_inj, UInt8.toBitVec_inj]

theorem forall_byte {P : UInt8 → Prop} (h : ∀ n < 256, P (UInt8.ofNat n)) (c : UInt8) : P c := by
  have hc := h c.toNat (UInt8.toNat_lt c)
  rwa [UInt8.ofNat_toNat] at hc

/-- What is not a digit is compared with a number as with any of its digits. -/
theorem foldChar_apart (h : isDigit c = false) : foldChar foldCase c < 48 ∨ 57 < foldChar foldCase c := by
  have hbytes : ∀ c : UInt8, isDigit c = false → (natChar c < 48 ∨ 57 < natChar c) ∧
      (natChar (toUpper c) < 48 ∨ 57 < natChar (toUpper c)) := forall_byte (by decide +kernel)
  cases foldCase
  · exact (hbytes c h).1
  · exact (hbytes c h).2

theorem foldChar_digit (h : isDigit c = true) :
    48 ≤ foldChar foldCase c ∧ foldChar foldCase c ≤ 57 := by
  have hupper : toUpper c = c := by
    have hbounds := isDigit_iff.mp h
    have hbelow : ¬ (97 : UInt8) ≤ c := fun hle => by
      have := UInt8.le_iff_toNat_le.mp hle
      change 97 ≤ c.toNat at this
      omega
    simp [toUpper, hbelow]
  have hchar := natChar_digit h
  rw [foldChar, hupper, ite_self]
  omega

theorem foldChar_ne_zero (h : c ≠ 0) : foldChar foldCase c ≠ 0 := by
  have hbytes : ∀ c : UInt8, c ≠ 0 → natChar c ≠ 0 ∧ natChar (toUpper c) ≠ 0 :=
    forall_byte (by decide +kernel)
  cases foldCase
  · exact (hbytes c h).1
  · exact (hbytes c h).2

theorem natKey_head (h : isSpace c = false) :
    ∃ f rest, natKey foldCase (c :: s) = f :: rest ∧
      ∀ z, z < 48 ∨ 57 < z → intOrder f z = intOrder (foldChar foldCase c) z ∧
        intOrder z f = intOrder z (foldChar foldCase c) := by
  by_cases hdigit : isDigit c = true
  · have hfold : 48 ≤ foldChar foldCase c ∧ foldChar foldCase c ≤ 57 := foldChar_digit hdigit
    obtain ⟨f, rest, hkey, hf⟩ : ∃ f rest, natKey foldCase (c :: s) = f :: rest ∧
        (f = 48 ∨ f = 49) := by
      rw [natKey_digit hdigit, runKey]
      split_ifs
      · exact ⟨48, _, rfl, .inl rfl⟩
      · exact ⟨49, _, rfl, .inr rfl⟩
    refine ⟨f, rest, hkey, fun z hz => ?_⟩
    unfold intOrder
    constructor <;> split_ifs <;> first | rfl | omega
  · exact ⟨_, _, natKey_other h (by simpa using hdigit), fun z _ => ⟨rfl, rfl⟩⟩

theorem strSkipSpaces_cases (s : Bytes) :
    strSkipSpaces s = [] ∨ ∃ c rest, strSkipSpaces s = c :: rest ∧ isSpace c = false := by
  cases h : strSkipSpaces s with
  | nil => exact .inl rfl
  | cons c rest =>
    refine .inr ⟨c, rest, rfl, ?_⟩
    have hhead := List.head?_dropWhile_not isSpace s
    rw [← strSkipSpaces, h] at hhead
    simpa using hhead

theorem runKey_inj (h : runKey ds = runKey es) : ds = es := by
  have hmap : ∀ {ds es : Bytes}, ds.map natChar = es.map natChar → ds = es :=
    fun h => List.map_injective_iff.mpr (fun _ _ => natChar_inj.mp) h
  unfold runKey at h
  split_ifs at h
  · exact hmap (List.append_inj_left' (List.cons.inj h).2 rfl)
  · exact absurd (List.cons.inj h).1 (by decide)
  · exact absurd (List.cons.inj h).1 (by decide)
  · exact hmap (List.cons.inj (List.cons.inj h).2).2

/-- Behind the first digits of the same number the comparison is at the same place. -/
theorem keyOrder_behind (h : a.takeWhile isDigit = b.takeWhile isDigit) :
    keyOrder (natKey foldCase a) (natKey foldCase b) =
      keyOrder (natKey foldCase (a.dropWhile isDigit)) (natKey foldCase (b.dropWhile isDigit)) := by
  rw [natKey_behind a, natKey_behind b, h, keyOrder_append_of_length rfl, keyOrder_self,
    Ordering.eq_then]

theorem compareRuns_stop (h : startsWithDigit a = false ∨ startsWithDigit b = false) :
    compareRuns a b = 0 := by
  rcases h with h | h <;> simp [compareRuns, h]

/-- Where the texts are not both at a number, their first characters are compared. -/
theorem keyOrder_chars (hx : isSpace x = false) (hy : isSpace y = false)
    (h : isDigit x = false ∨ isDigit y = false) :
    keyOrder (natKey foldCase (x :: a)) (natKey foldCase (y :: b)) =
      (intOrder (foldChar foldCase x) (foldChar foldCase y)).then
        (keyOrder (natKey foldCase a) (natKey foldCase b)) := by
  -- a number and another character differ
  have hdiffer : ∀ {u v : UInt8}, isDigit u = true → isDigit v = false →
      intOrder (foldChar foldCase u) (foldChar foldCase v) ≠ .eq ∧
        intOrder (foldChar foldCase v) (foldChar foldCase u) ≠ .eq := by
    intro u v hu hv
    have hdigit : 48 ≤ foldChar foldCase u ∧ foldChar foldCase u ≤ 57 := foldChar_digit hu
    have hapart : foldChar foldCase v < 48 ∨ 57 < foldChar foldCase v := foldChar_apart hv
    rw [Ne, Ne, intOrder_eq, intOrder_eq]
    omega
  have hthen : ∀ {o : Ordering}, o ≠ .eq → ∀ o', o.then o' = o := by decide
  obtain ⟨f, k, hkeyA, hf⟩ := @natKey_head foldCase a x hx
  obtain ⟨g, l, hkeyB, hg⟩ := @natKey_head foldCase b y hy
  by_cases hxdigit : isDigit x = true
  · have hydigit : isDigit y = false := h.resolve_left (by simp [hxdigit])
    have hne := (hdiffer hxdigit hydigit).1
    rw [hkeyA, natKey_other hy hydigit, keyOrder_cons, (hf _ (foldChar_apart hydigit)).1,
      hthen hne, hthen hne]
  · have hxdigit : isDigit x = false := by simpa using hxdigit
    by_cases hydigit : isDigit y = true
    · have hne := (hdiffer hydigit hxdigit).2
      rw [hkeyB, natKey_other hx hxdigit, keyOrder_cons, (hg _ (foldChar_apart hxdigit)).2,
        hthen hne, hthen hne]
    · rw [natKey_other hx hxdigit, natKey_other hy (by simpa using hydigit), keyOrder_cons]

theorem mem_of_skip {rest : Bytes} (h : strSkipSpaces s = rest) (hc : c ∈ rest) : c ∈ s :=
  (List.dropWhile_suffix isSpace).subset (h ▸ hc : c ∈ strSkipSpaces s)

/-- The end of a text is compared as a character, the NUL. -/
theorem keyOrder_end (hx : isSpace x = false) (hzero : x ≠ 0) :
    signOf (keyOrder (natKey foldCase (x :: a)) [0]) = if foldChar foldCase x < 0 then -1 else 1 := by
  obtain ⟨f, k, hkey, hf⟩ := @natKey_head foldCase a x hx
  have hne : foldChar foldCase x ≠ 0 := foldChar_ne_zero hzero
  rw [hkey, keyOrder_cons, (hf 0 (by decide)).1]
  split_ifs with hneg
  · rw [intOrder_lt hneg]
    rfl
  · rw [intOrder_gt (by omega)]
    rfl

theorem signOf_swap (o : Ordering) : signOf o.swap = - signOf o := by
  cases o <;> rfl

theorem keyOrder_swap (k l : List Int) : keyOrder k l = (keyOrder l k).swap :=
  (inferInstance : Std.OrientedCmp keyOrder).eq_swap

theorem chars_sign (x y : Int) (o : Ordering) :
    (if x < y then -1 else if y < x then 1 else signOf o) = signOf ((intOrder x y).then o) := by
  unfold intOrder
  split_ifs <;> rfl

theorem mem_takeWhile_cons (hx : isDigit x = true) :
    ∀ d ∈ x :: s.takeWhile isDigit, isDigit d = true := by
  rintro d (_ | ⟨_, hd⟩)
  · exact hx
  · exact List.mem_takeWhile_imp hd

/-- The comparison of two texts is the comparison of their keys. -/
theorem strnatcmp0_eq (ha : (0 : UInt8) ∉ a) (hb : (0 : UInt8) ∉ b) :
    strnatcmp0 foldCase a b = signOf (keyOrder (natKey foldCase a) (natKey foldCase b)) := by
  induction a generalizing b with
  | nil =>
    rw [strnatcmp0, ← natKey_skip b, natKey_nil]
    rcases strSkipSpaces_cases b with hskip | ⟨c, rest, hskip, hspace⟩
    · rw [hskip, natKey_nil]
      rfl
    · have hc : c ≠ 0 := fun hzero => hb (hzero ▸ mem_of_skip hskip List.mem_cons_self)
      have hne : foldChar foldCase c ≠ 0 := foldChar_ne_zero hc
      rw [hskip, keyOrder_swap, signOf_swap, keyOrder_end hspace hc]
      dsimp only
      split_ifs <;> first | rfl | omega
  | cons ca a ih =>
    rw [strnatcmp0]
    have ha' : (0 : UInt8) ∉ a := fun hmem => ha (List.mem_cons_of_mem _ hmem)
    have hca : ca ≠ 0 := fun hzero => ha (hzero ▸ List.mem_cons_self)
    by_cases hspace : isSpace ca = true
    · rw [if_pos hspace, natKey_space hspace]
      exact ih ha' hb
    · rw [if_neg hspace, ← natKey_skip b]
      have hspace : isSpace ca = false := by simpa using hspace
      rcases strSkipSpaces_cases b with hskip | ⟨cb, b', hskip, hspaceB⟩
      · rw [hskip, natKey_nil, keyOrder_end hspace hca]
        dsimp only
        rw [compareRuns_stop (.inr rfl)]
        exact if_neg (by decide)
      · have hb' : (0 : UInt8) ∉ b' := fun hmem =>
          hb (mem_of_skip hskip (List.mem_cons_of_mem _ hmem))
        rw [hskip]
        dsimp only
        rw [ih ha' hb', chars_sign]
        by_cases hdigits : isDigit ca = true ∧ isDigit cb = true
        · obtain ⟨hx, hy⟩ := hdigits
          have hruns := compareRuns_eq (a := ca :: a) (b := cb :: b') hx hy
          rw [natKey_digit hx, natKey_digit hy,
            keyOrder_runKey (mem_takeWhile_cons hx) (mem_takeWhile_cons hy), hruns,
            List.takeWhile_cons_of_pos hx, List.takeWhile_cons_of_pos hy]
          cases horder : keyOrder (runKey (ca :: a.takeWhile isDigit))
              (runKey (cb :: b'.takeWhile isDigit)) with
          | lt => rfl
          | gt => rfl
          | eq =>
            -- the same number, and the texts go on behind it as behind its first digit
            obtain ⟨rfl, hrest⟩ := List.cons.inj (runKey_inj (keyOrder_eq horder))
            rw [if_neg (by decide), intOrder_self, Ordering.eq_then, Ordering.eq_then,
              keyOrder_behind hrest]
        · have hstop : isDigit ca = false ∨ isDigit cb = false := by
            rcases Decidable.not_and_iff_or_not.mp hdigits with h | h
            · exact .inl (by simpa using h)
            · exact .inr (by simpa using h)
          have hruns : compareRuns (ca :: a) (cb :: b') = 0 := compareRuns_stop hstop
          rw [hruns, if_neg (by decide), keyOrder_chars hspace hspaceB hstop]

/-! The order of texts -/

theorem strnatcmp_eq (ha : (0 : UInt8) ∉ a) (hb : (0 : UInt8) ∉ b) :
    strnatcmp a b = signOf (keyOrder (natKey false a) (natKey false b)) := by
  rw [← strnatcmp0_false, strnatcmp0_eq ha hb]

theorem signOf_le_zero {o : Ordering} : signOf o ≤ 0 ↔ o.isLE = true := by
  cases o <;> decide

theorem signOf_lt_zero {o : Ordering} : signOf o < 0 ↔ o = .lt := by
  cases o <;> decide

theorem keyOrder_isLE_trans {k l m : List Int} (hkl : (keyOrder k l).isLE = true)
    (hlm : (keyOrder l m).isLE = true) : (keyOrder k m).isLE = true :=
  (inferInstance : Std.TransCmp keyOrder).isLE_trans hkl hlm

theorem keyOrder_lt_of_lt_of_isLE {k l m : List Int} (hkl : keyOrder k l = .lt)
    (hlm : (keyOrder l m).isLE = true) : keyOrder k m = .lt :=
  Std.TransCmp.lt_of_lt_of_isLE hkl hlm

theorem keyOrder_lt_of_isLE_of_lt {k l m : List Int} (hkl : (keyOrder k l).isLE = true)
    (hlm : keyOrder l m = .lt) : keyOrder k m = .lt :=
  Std.TransCmp.lt_of_isLE_of_lt hkl hlm

/-- The comparison is a total preorder of texts: swapping the texts turns it round, and it
is transitive, also where one of the two comparisons is strict. -/
theorem strnatcmp0_preorder (foldCase : Bool) {a b c : Bytes} (ha : (0 : UInt8) ∉ a)
    (hb : (0 : UInt8) ∉ b) (hc : (0 : UInt8) ∉ c) :
    strnatcmp0 foldCase b a = - strnatcmp0 foldCase a b ∧
      (strnatcmp0 foldCase a b ≤ 0 → strnatcmp0 foldCase b c ≤ 0 →
        strnatcmp0 foldCase a c ≤ 0 ∧
          (strnatcmp0 foldCase a b < 0 ∨ strnatcmp0 foldCase b c < 0 →
            strnatcmp0 foldCase a c < 0)) := by
  rw [strnatcmp0_eq ha hb, strnatcmp0_eq hb ha, strnatcmp0_eq hb hc, strnatcmp0_eq ha hc]
  simp only [signOf_le_zero, signOf_lt_zero]
  refine ⟨by rw [keyOrder_swap, signOf_swap], fun hab hbc => ⟨keyOrder_isLE_trans hab hbc, ?_⟩⟩
  rintro (hlt | hlt)
  · exact keyOrder_lt_of_lt_of_isLE hlt hbc
  · exact keyOrder_lt_of_isLE_of_lt hab hlt

theorem strnatcmp0_preorder_versions :
    strnatcmp0 false (ascii "1.0.9") (ascii "1.0.12") ≤ 0 ∧
      strnatcmp0 false (ascii "1.0.12") (ascii "1.1pre17") ≤ 0 ∧
      strnatcmp0 false (ascii "1.0.9") (ascii "1.1pre17") < 0 := by
  have hstep := strnatcmp0_preorder false (a := ascii "1.0.9") (b := ascii "1.0.12")
    (c := ascii "1.1pre17") (by decide) (by decide) (by decide)
  have hfirst : strnatcmp0 false (ascii "1.0.9") (ascii "1.0.12") < 0 := by decide
  have hsecond : strnatcmp0 false (ascii "1.0.12") (ascii "1.1pre17") ≤ 0 := by decide
  exact ⟨Int.le_of_lt hfirst, hsecond, (hstep.2 (Int.le_of_lt hfirst) hsecond).2 (.inl hfirst)⟩

end ChaosVpn.NaturalOrder
