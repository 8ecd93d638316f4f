import ChaosVpn.StringBuffer
import ChaosVpn.Library.TextLines

/-! What the address and output code takes from the C library: the numeric
address reader and writer, and the formatter for the directives that
string_concat_sprintf does not do itself. -/

namespace ChaosVpn.Libc
open CStrings StringBuffer TextLines

inductive Family
  | inet
  | inet6
  deriving DecidableEq

def addrByteCount : Family → Nat
  | .inet => 4
  | .inet6 => 16

def addrBitCount : Family → Nat
  | .inet => 32
  | .inet6 => 128

theorem addrBitCount_eq (family : Family) : addrBitCount family = 8 * addrByteCount family := by
  cases family <;> rfl

abbrev Address (family : Family) := { bytes : Bytes // bytes.length = addrByteCount family }

inductive FormatArg
  | str (s : Bytes)
  | structString (x : StructString)
  | int (i : Int)

/-- getaddrinfo() is called with AI_NUMERICHOST and gives the first address;
vsnprintf() gives its full output and the arguments it left. -/
structure CLibrary where
  getaddrinfo : (family : Family) → Bytes → Option (Address family)
  inetNtop : Family → Bytes → Bytes
  vsnprintf : Bytes → List FormatArg → Option (Bytes × List FormatArg)

/-! string_concat_sprintf -/

def isFormatFlag (c : UInt8) : Bool :=
  isDigit c || c ∈ [46, 32, 35, 43, 45, 39]

/-- The output of the directive that `c` ends, and the arguments behind it. A
missing argument or an output beyond the buffer of 4096 bytes is undefined. -/
def directive (libc : CLibrary) (cfs : Bytes) (c : UInt8) (args : List FormatArg) :
    Option (Bytes × List FormatArg) :=
  if cfs = [] ∧ c = 115 then
    match args with
    | .str s :: args => some (s, args)
    | _ => none
  else if cfs = [] ∧ c = 83 then
    match args with
    | .structString x :: args => some (content x, args)
    | _ => none
  else if cfs = [] ∧ c = 100 then
    match args with
    | .int i :: args => some (decimalInt (toInt32 i), args)
    | _ => none
  else (libc.vsnprintf (percent :: cfs ++ [c]) args).filter (·.1.length < 4096)

/-- The text a format stands for. The middle argument is the part of a directive
read so far; a complex one ends the program when it outgrows its 32 bytes. -/
def formatted (libc : CLibrary) : Bytes → Option Bytes → List FormatArg → Option Bytes
  | [], none, _ => some []
  | [], some [], _ => some []
  | [], some (_ :: _), _ => none
  | c :: msg, none, args =>
    if c = percent then formatted libc msg (some []) args
    else (formatted libc msg none args).map (c :: ·)
  | c :: msg, some cfs, args =>
    if isFormatFlag c then
      if cfs.length < 29 then formatted libc msg (some (cfs ++ [c])) args else none
    else
      (directive libc cfs c args).bind fun (text, args) =>
        (formatted libc msg none args).map (text ++ ·)

def stringConcatSprintf (libc : CLibrary) (x : StructString) (msg : Bytes) (args : List FormatArg) :
    Option StructString :=
  (formatted libc msg none args).map fun text => ⟨some (content x ++ text)⟩

variable {libc : CLibrary}

theorem formatted_append {literal msg : Bytes} {args : List FormatArg}
    (h : percent ∉ literal) :
    formatted libc (literal ++ msg) none args =
      (formatted libc msg none args).map (literal ++ ·) := by
  induction literal with
  | nil => simp
  | cons c literal ih =>
    have hc : c ≠ percent := fun hc => h (by simp [hc])
    have hrest : percent ∉ literal := fun hmem => h (by simp [hmem])
    simp [formatted, hc, ih hrest, Function.comp_def]

theorem formatted_literal {literal : Bytes} {args : List FormatArg} (h : percent ∉ literal) :
    formatted libc literal none args = some literal := by
  have happend : formatted libc (literal ++ []) none args = _ := formatted_append h
  simpa [formatted] using happend

/-- A format with one `%s` puts the argument between its two parts. -/
theorem formatted_str {before after s : Bytes} (hbefore : percent ∉ before)
    (hafter : percent ∉ after) :
    formatted libc (before ++ ascii "%s" ++ after) none [.str s] =
      some (before ++ s ++ after) := by
  have hstr : formatted libc (ascii "%s" ++ after) none [.str s] =
      (formatted libc after none []).map (s ++ ·) := rfl
  rw [List.append_assoc, formatted_append hbefore, hstr, formatted_literal hafter]
  simp

/-! What a config file written line by line needs of numeric texts -/

/-- Texts without the bytes that end a line and that start a comment. -/
def Unmarked (text : Bytes) : Prop := ∀ c ∈ text, c ≠ hash ∧ c ≠ lineFeed

instance (text : Bytes) : Decidable (Unmarked text) := inferInstanceAs (Decidable (∀ _ ∈ _, _))

theorem unmarked_append {a b : Bytes} : Unmarked (a ++ b) ↔ Unmarked a ∧ Unmarked b :=
  List.forall_mem_append

theorem unmarked_cons {c : UInt8} {text : Bytes} :
    Unmarked (c :: text) ↔ (c ≠ hash ∧ c ≠ lineFeed) ∧ Unmarked text :=
  List.forall_mem_cons

theorem Unmarked.not_mem {text : Bytes} (h : Unmarked text) : hash ∉ text ∧ lineFeed ∉ text :=
  ⟨fun hmem => (h _ hmem).1 rfl, fun hmem => (h _ hmem).2 rfl⟩

theorem unmarked_of_forall {p : UInt8 → Bool} {text : Bytes} (hhash : p hash = false)
    (hlineFeed : p lineFeed = false) (h : ∀ c ∈ text, p c = true) : Unmarked text := by
  intro c hc
  have hbyte := h c hc
  refine ⟨?_, ?_⟩
  · rintro rfl
    exact absurd hbyte (Bool.eq_false_iff.mp hhash)
  · rintro rfl
    exact absurd hbyte (Bool.eq_false_iff.mp hlineFeed)

/-- Numeric addresses are read and written without these bytes. -/
structure NumericTexts (libc : CLibrary) : Prop where
  read : ∀ family text, (libc.getaddrinfo family text).isSome = true → Unmarked text
  written : ∀ family (address : Address family), Unmarked (libc.inetNtop family address.1)

/-! A reader and writer of full addresses, without the short forms -/

def plainByte (group : Bytes) : Option UInt8 :=
  if strAlldig group ∧ digitsValue group < 256 ∧ decimal (digitsValue group) = group then
    some (UInt8.ofNat (digitsValue group))
  else none

def plainWord (group : Bytes) : Option Bytes :=
  if group ≠ [] ∧ group.length ≤ 4 ∧ group.all (hexDigit · < 16) then
    let v := group.foldl (fun v d => 16 * v + hexDigit d) 0
    some [UInt8.ofNat (v / 256), UInt8.ofNat (v % 256)]
  else none

def plainAddress : Family → Bytes → Option Bytes
  | .inet, text => (text.splitOn 46).mapM plainByte
  | .inet6, text => ((text.splitOn colon).mapM plainWord).map List.flatten

def plainLibrary : CLibrary where
  getaddrinfo family text :=
    (plainAddress family text).bind fun bytes =>
      if h : bytes.length = addrByteCount family then some ⟨bytes, h⟩ else none
  inetNtop
    | .inet, bytes => (ascii ".").intercalate (bytes.map fun b => decimal b.toNat)
    | .inet6, bytes => (ascii ":").intercalate ((bytes.toChunks 2).map fun word =>
        (Nat.toDigits 16 (word.foldl (fun v b => 256 * v + b.toNat) 0)).map fun c =>
          UInt8.ofNat c.toNat)
  vsnprintf _ _ := none

theorem unmarked_digitChar (d : Nat) :
    Unmarked [UInt8.ofNat d.digitChar.toNat] := by
  by_cases h : d < 16
  · have hall : ∀ d : Nat, d < 16 → Unmarked [UInt8.ofNat (Nat.digitChar d).toNat] := by decide
    exact hall d h
  · have hd : d.digitChar = '*' := by
      unfold Nat.digitChar
      repeat rw [if_neg (by omega)]
    rw [hd]
    decide

theorem unmarked_toDigits {b : Nat} (hb : 1 < b) (n : Nat) :
    Unmarked ((Nat.toDigits b n).map fun c => UInt8.ofNat c.toNat) := by
  induction n using Nat.strongRecOn with
  | ind n ih =>
    rw [Nat.toDigits_eq_if hb]
    split
    · exact unmarked_digitChar n
    · rw [List.map_append, unmarked_append]
      exact ⟨ih (n / b) (Nat.div_lt_self (by omega) hb), unmarked_digitChar (n % b)⟩

theorem isSome_of_mapM {α β} {f : α → Option β} {l : List α} (h : (l.mapM f).isSome = true) :
    ∀ x ∈ l, (f x).isSome = true := by
  induction l with
  | nil => simp
  | cons x l ih =>
    obtain ⟨ys, h⟩ := Option.isSome_iff_exists.mp h
    rw [List.mapM_cons, Option.bind_eq_bind, Option.bind_eq_some_iff] at h
    obtain ⟨y, hy, h⟩ := h
    rw [Option.bind_eq_bind, Option.bind_eq_some_iff] at h
    obtain ⟨zs, hzs, -⟩ := h
    rw [List.forall_mem_cons]
    exact ⟨by simp [hy], ih (by simp [hzs])⟩

theorem unmarked_intercalate {joint : Bytes} {pieces : List Bytes} (hjoint : Unmarked joint)
    (hpieces : ∀ piece ∈ pieces, Unmarked piece) : Unmarked (joint.intercalate pieces) := by
  intro c hc
  rcases mem_of_mem_intercalate hc with hc | ⟨piece, hpiece, hc⟩
  · exact hjoint c hc
  · exact hpieces piece hpiece c hc

theorem unmarked_of_pieces {text : Bytes} {separator : UInt8} (hseparator : Unmarked [separator])
    (hpieces : ∀ piece ∈ text.splitOn separator, Unmarked piece) : Unmarked text := by
  have hjoin : [separator].intercalate (text.splitOn separator) = text :=
    List.intercalate_splitOn separator
  rw [← hjoin]
  exact unmarked_intercalate hseparator hpieces

theorem unmarked_of_plainByte {group : Bytes} (h : (plainByte group).isSome = true) :
    Unmarked group := by
  unfold plainByte at h
  split at h
  · rename_i hdigits
    rw [← hdigits.2.2]
    exact unmarked_toDigits (by decide) _
  · simp at h

theorem unmarked_of_plainWord {group : Bytes} (h : (plainWord group).isSome = true) :
    Unmarked group := by
  unfold plainWord at h
  split at h
  · rename_i hdigits
    exact unmarked_of_forall (by decide) (by decide) (List.all_eq_true.mp hdigits.2.2)
  · simp at h

theorem numericTexts_plainLibrary : NumericTexts plainLibrary where
  read family text h := by
    have hread : (plainAddress family text).isSome = true := by
      simp only [plainLibrary] at h
      cases hplain : plainAddress family text with
      | none => simp [hplain] at h
      | some bytes => rfl
    cases family with
    | inet =>
      exact unmarked_of_pieces (by decide) fun piece hpiece =>
        unmarked_of_plainByte (isSome_of_mapM hread piece hpiece)
    | inet6 =>
      rw [plainAddress, Option.isSome_map] at hread
      exact unmarked_of_pieces (by decide) fun piece hpiece =>
        unmarked_of_plainWord (isSome_of_mapM hread piece hpiece)
  written family address := by
    cases family with
    | inet =>
      refine unmarked_intercalate (by decide) fun piece hpiece => ?_
      obtain ⟨b, -, rfl⟩ := List.mem_map.mp hpiece
      exact unmarked_toDigits (by decide) _
    | inet6 =>
      refine unmarked_intercalate (by decide) fun piece hpiece => ?_
      obtain ⟨word, -, rfl⟩ := List.mem_map.mp hpiece
      exact unmarked_toDigits (by decide) _

end ChaosVpn.Libc
