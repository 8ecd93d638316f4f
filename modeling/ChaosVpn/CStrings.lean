import Mathlib.Data.List.Basic

/-! Byte strings as the C code sees them: NUL-terminated texts, the helpers of
string/string.h that work on plain `char*`, and the number readers of the C
library with their saturation at the ends of a 64 bit `long`. A `char*` that may
be NULL is an `Option Bytes`; the text of a non-NULL one holds no NUL byte. -/

namespace ChaosVpn.CStrings

abbrev Bytes := List UInt8

def ascii (s : String) : Bytes := s.toList.map fun c => UInt8.ofNat c.toNat

theorem ascii_append (a b : String) : ascii (a ++ b) = ascii a ++ ascii b := by
  simp [ascii]

/-- One proof for every test whether a text is among some texts. -/
instance instLawfulBEqBytes : LawfulBEq Bytes := inferInstanceAs (LawfulBEq (List UInt8))

/-- A property of all bytes of a text is decided at these bytes only. -/
instance (priority := high) (p : UInt8 → Prop) [DecidablePred p] (text : Bytes) :
    Decidable (∀ c ∈ text, p c) := List.decidableBAll p text

abbrev lineFeed : UInt8 := 10
abbrev carriageReturn : UInt8 := 13
abbrev space : UInt8 := 32
abbrev hash : UInt8 := 35
abbrev percent : UInt8 := 37
abbrev slash : UInt8 := 47
abbrev colon : UInt8 := 58

/-- The part of a buffer that a function taking a `char*` reads. -/
def cstr (b : Bytes) : Bytes := b.takeWhile (· ≠ 0)

def strIsEmpty (s : Option Bytes) : Bool := (s.getD []).isEmpty

def strIsNonempty (s : Option Bytes) : Bool := !strIsEmpty s

theorem strIsNonempty_iff {s : Option Bytes} :
    strIsNonempty s = true ↔ ∃ b, s = some b ∧ b ≠ [] := by
  cases s <;> simp [strIsNonempty, strIsEmpty]

def isSpace (b : UInt8) : Bool := b = 32 || (9 ≤ b && b ≤ 13)

def isDigit (b : UInt8) : Bool := 48 ≤ b && b ≤ 57

def toLower (b : UInt8) : UInt8 := if 65 ≤ b && b ≤ 90 then b + 32 else b

/-- Both strcasecmp() and strncasecmp() are only ever compared with 0. -/
def strcasecmp (a b : Bytes) : Bool := a.map toLower == b.map toLower

def strncasecmp (a b : Bytes) (n : Nat) : Bool := strcasecmp (a.take n) (b.take n)

/-- The text before the first delimiter, and what follows it if there is one. -/
def strSplitAt (delimiter : UInt8) : Bytes → Bytes × Option Bytes
  | [] => ([], none)
  | c :: cs =>
    if c = delimiter then ([], some cs)
    else ((strSplitAt delimiter cs).1.cons c, (strSplitAt delimiter cs).2)

theorem strSplitAt_none {d : UInt8} {s a : Bytes} :
    strSplitAt d s = (a, none) ↔ a = s ∧ d ∉ s := by
  induction s generalizing a with
  | nil => simp [strSplitAt, eq_comm]
  | cons c cs ih =>
    by_cases hc : c = d
    · simp [strSplitAt, hc]
    · have hsplit := ih (a := (strSplitAt d cs).1)
      simp only [strSplitAt, if_neg hc, Prod.mk.injEq, List.mem_cons, not_or]
      constructor
      · rintro ⟨rfl, h⟩
        obtain ⟨h1, h2⟩ := hsplit.mp (Prod.ext rfl h)
        exact ⟨by rw [h1], fun h => hc h.symm, h2⟩
      · rintro ⟨rfl, -, h⟩
        obtain hs := (ih (a := cs)).mpr ⟨rfl, h⟩
        simp [hs]

theorem strSplitAt_some {d : UInt8} {s a rest : Bytes} :
    strSplitAt d s = (a, some rest) ↔ s = a ++ d :: rest ∧ d ∉ a := by
  induction s generalizing a with
  | nil => simp [strSplitAt]
  | cons c cs ih =>
    by_cases hc : c = d
    · subst hc
      cases a with
      | nil => simp [strSplitAt, eq_comm]
      | cons x xs => simp [strSplitAt]; intro h _ hx; exact absurd h hx
    · cases a with
      | nil => simp [strSplitAt, hc]
      | cons x xs =>
        have hrest := ih (a := xs)
        simp only [strSplitAt, if_neg hc, Prod.mk.injEq, List.cons.injEq, List.cons_append,
          List.mem_cons, not_or]
        constructor
        · rintro ⟨⟨rfl, rfl⟩, h⟩
          obtain ⟨h1, h2⟩ := hrest.mp (Prod.ext rfl h)
          exact ⟨⟨rfl, h1⟩, fun h => hc h.symm, h2⟩
        · rintro ⟨⟨rfl, h1⟩, -, h2⟩
          have := hrest.mpr ⟨h1, h2⟩
          simp [this]

def strAlldig (s : Bytes) : Bool := !s.isEmpty && s.all isDigit

def strSkipSpaces (s : Bytes) : Bytes := s.dropWhile isSpace

def strTrim (s : Bytes) : Bytes :=
  ((strSkipSpaces s).reverse.dropWhile isSpace).reverse

def strIsTrue (s : Bytes) (dflt : Bool) : Bool :=
  if s.isEmpty then dflt
  else if s == ascii "0" || strcasecmp s (ascii "no") then false
  else if s == ascii "1" || strcasecmp s (ascii "yes") then true
  else dflt

/-! Numbers -/

def digitsValue (ds : Bytes) : Nat := ds.foldl (fun v d => 10 * v + (d.toNat - 48)) 0

def decimal (n : Nat) : Bytes := (Nat.toDigits 10 n).map fun c => UInt8.ofNat c.toNat

def decimalInt (i : Int) : Bytes :=
  if i < 0 then ascii "-" ++ decimal i.natAbs else decimal i.natAbs

def longMax : Int := 0x7fffffffffffffff
def longMin : Int := -0x8000000000000000

/-- An optional sign in front of a number. -/
def takeSign : Bytes → Bool × Bytes
  | 45 :: s => (true, s)
  | 43 :: s => (false, s)
  | s => (false, s)

/-- strtol() to base 10: the value, and what the end pointer is left at. -/
def strtol (s : Bytes) : Int × Bytes :=
  let (negative, digits) := takeSign (strSkipSpaces s)
  let ds := digits.takeWhile isDigit
  if ds.isEmpty then (0, s)
  else
    (if negative then max (-digitsValue ds) longMin else min (digitsValue ds) longMax,
      digits.dropWhile isDigit)

/-- The conversion of a `long` to an `int`. -/
def toInt32 (v : Int) : Int := Int.bmod v 0x100000000

def atoi (s : Bytes) : Int := toInt32 (strtol s).1

theorem takeWhile_append_stop {α : Type} {p : α → Bool} {a rest : List α}
    (ha : ∀ x ∈ a, p x = true) (hrest : ∀ x, rest.head? = some x → p x = false) :
    (a ++ rest).takeWhile p = a := by
  rw [List.takeWhile_append_of_pos ha]
  cases rest with
  | nil => simp
  | cons x xs => simp [hrest x rfl]

theorem takeWhile_all {α : Type} {p : α → Bool} {a : List α} (h : ∀ x ∈ a, p x = true) :
    a.takeWhile p = a := by
  have htake : (a ++ []).takeWhile p = a := takeWhile_append_stop h (by simp)
  rwa [List.append_nil] at htake

theorem cstr_eq {text : Bytes} (h : (0 : UInt8) ∉ text) : cstr text = text :=
  takeWhile_all fun _ hc => decide_eq_true fun h0 => h (h0 ▸ hc)

theorem dropWhile_all {α : Type} {p : α → Bool} {a : List α} (h : ∀ x ∈ a, p x = true) :
    a.dropWhile p = [] := by
  induction a with
  | nil => rfl
  | cons x a ih => rw [List.dropWhile_cons_of_pos (h x (by simp)), ih fun y hy => h y (by simp [hy])]

theorem isSpace_of_isDigit {d : UInt8} (h : isDigit d = true) : isSpace d = false := by
  simp only [isDigit, Bool.and_eq_true, decide_eq_true_eq, UInt8.le_iff_toNat_le,
    UInt8.reduceToNat] at h
  simp only [isSpace, Bool.or_eq_false_iff, Bool.and_eq_false_iff, decide_eq_false_iff_not,
    ← UInt8.toNat_inj, UInt8.le_iff_toNat_le, UInt8.reduceToNat]
  omega

theorem takeSign_of_isDigit {d : UInt8} {s : Bytes} (h : isDigit d = true) :
    takeSign (d :: s) = (false, d :: s) := by
  unfold takeSign
  split <;> rename_i heq
  · exact absurd ((List.cons.inj heq).1 ▸ h) (by decide)
  · exact absurd ((List.cons.inj heq).1 ▸ h) (by decide)
  · rfl

/-- A numeral is read to its last digit, whatever follows it. -/
theorem strtol_numeral {ds rest : Bytes} (hne : ds ≠ []) (hds : ∀ d ∈ ds, isDigit d = true)
    (hrest : ∀ x, rest.head? = some x → isDigit x = false) :
    (strtol (ds ++ rest)).1 = min (digitsValue ds : Int) longMax := by
  have htake := takeWhile_append_stop hds hrest
  obtain ⟨d, ds', rfl⟩ := List.exists_cons_of_ne_nil hne
  have hd := hds d (by simp)
  have hskip : strSkipSpaces (d :: (ds' ++ rest)) = d :: (ds' ++ rest) := by
    simp [strSkipSpaces, isSpace_of_isDigit hd]
  rw [List.cons_append] at htake
  simp [strtol, hskip, takeSign_of_isDigit hd, htake]

def ulongMax : Nat := 0xffffffffffffffff

/-- The value of a digit or letter, as the bases up to 16 use it. -/
def hexDigit (b : UInt8) : Nat :=
  if isDigit b then b.toNat - 48
  else if 97 ≤ toLower b && toLower b ≤ 102 then (toLower b).toNat - 87
  else 16

/-- Base and digits that strtoul() to base 0 finds behind the sign. -/
def detectBase : Bytes → Nat × Bytes
  | 48 :: x :: h :: s =>
    if toLower x = 120 && hexDigit h < 16 then (16, h :: s) else (8, 48 :: x :: h :: s)
  | 48 :: s => (8, 48 :: s)
  | s => (10, s)

def strtoul (s : Bytes) : Nat :=
  let (negative, digits) := takeSign (strSkipSpaces s)
  let (base, digits) := detectBase digits
  let v := (digits.takeWhile (hexDigit · < base)).foldl (fun v d => base * v + hexDigit d) 0
  if v > ulongMax then ulongMax else if negative then (ulongMax + 1 - v) % (ulongMax + 1) else v

end ChaosVpn.CStrings
