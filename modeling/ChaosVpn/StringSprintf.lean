import ChaosVpn.Libc
import ChaosVpn.StringMemory

/-! string_concat_sprintf on the memory of a struct string: a scan of the format that appends
with the other operations, and for all directives but the simplest prints into a buffer of
4096 bytes first. -/

namespace ChaosVpn.StringSprintf
open CStrings Blocks Blocks.Behaviour StringMemory
open Libc (isFormatFlag)

/-- A struct string is handed over in order; other types are for vsnprintf() alone. -/
inductive Argument (δ : Type)
  | str (text : Bytes)
  | structString (x : { x : StructString // Valid x })
  | int (i : Int32)
  | other (d : δ)

/-- What vsnprintf() makes of a directive, unless that is an error, and the arguments behind. -/
abbrev Vsnprintf (δ : Type) := Bytes → List (Argument δ) → Option Bytes × List (Argument δ)

variable {δ : Type}

/-- The buffer, as far as vsnprintf() has filled it, and its result as a size_t: an error, or
a text longer than an int can say, is -1. -/
def printed : Option Bytes → Bytes × Nat
  | none => ([], sizeDiff 0 1)
  | some text =>
    (text.take 4095 ++ [0], if text.length < 2 ^ 31 then text.length else sizeDiff 0 1)

def defprintf (memory : Memory) (vsnprintf : Vsnprintf δ) (st : StructString) (fmt : Bytes)
    (args : List (Argument δ)) : Behaviour ((Bool × StructString) × List (Argument δ)) := do
  let (text, args) := vsnprintf fmt args
  let (buf, len) := printed text
  let r ← stringConcatb memory st buf len
  return (r, args)

/-- The directive that `c` ends. An argument of another type is undefined. -/
def directive (memory : Memory) (vsnprintf : Vsnprintf δ) (st : StructString) (cfs : Bytes)
    (c : UInt8) (args : List (Argument δ)) :
    Behaviour ((Bool × StructString) × List (Argument δ)) :=
  if cfs = [] ∧ c = 115 then
    match args with
    | .str s :: args => do
      let r ← stringConcat memory st s
      return (r, args)
    | _ => outside
  else if cfs = [] ∧ c = 83 then
    match args with
    | .structString x :: args => do
      let r ← stringConcats memory st x.1
      return (r, args)
    | _ => outside
  else if cfs = [] ∧ c = 100 then
    match args with
    | .int i :: args => do
      let r ← stringPutint memory st i
      return (r, args)
    | _ => outside
  else defprintf memory vsnprintf st (cstr (percent :: cfs ++ [c])) args

/-- The loop over the memory from `msg` on. The flags of a directive are kept as far as they
have been read; behind one that a NUL byte ends the loop goes on all the same. -/
def sprintfLoop (memory : Memory) (vsnprintf : Vsnprintf δ) :
    Bytes → Option Bytes → StructString → List (Argument δ) → Behaviour (Bool × StructString)
  | [], _, _, _ => outside
  | c :: msg, none, st, args =>
    if c = 0 then putTerminator memory st
    else if c = percent then sprintfLoop memory vsnprintf msg (some []) st args
    else do
      let (ok, st) ← stringPutc memory st c
      if ok then sprintfLoop memory vsnprintf msg none st args else return (false, st)
  | c :: msg, some cfs, st, args =>
    if cfs = [] ∧ c = 0 then putTerminator memory st
    else if isFormatFlag c then
      if cfs.length < 29 then sprintfLoop memory vsnprintf msg (some (cfs ++ [c])) st args
      else exits
    else do
      let ((ok, st), args) ← directive memory vsnprintf st cfs c args
      if ok then sprintfLoop memory vsnprintf msg none st args else return (false, st)

def stringConcatSprintf (memory : Memory) (vsnprintf : Vsnprintf δ) (st : StructString)
    (msg : Bytes) (args : List (Argument δ)) : Behaviour (Bool × StructString) :=
  sprintfLoop memory vsnprintf (msg ++ [0]) none st args

/-! Formats piece by piece -/

/-- A directive that vsnprintf() does. -/
structure Directive where
  flags : Bytes
  conversion : UInt8
  flags_ok : ∀ c ∈ flags, isFormatFlag c = true
  flags_length : flags.length ≤ 29
  conversion_ok : isFormatFlag conversion = false ∧ conversion ≠ 0
  not_simple : flags = [] → conversion ≠ 115 ∧ conversion ≠ 83 ∧ conversion ≠ 100

def Directive.written (d : Directive) : Bytes := percent :: d.flags ++ [d.conversion]

def percentSign : Directive where
  flags := []
  conversion := percent
  flags_ok := by simp
  flags_length := by decide
  conversion_ok := by decide
  not_simple := by decide

abbrev Literal := { c : UInt8 // c ≠ 0 ∧ c ≠ percent }

inductive Piece
  | literal (c : Literal)
  | str
  | structString
  | int
  | complex (d : Directive)

def Piece.written : Piece → Bytes
  | literal c => [c.1]
  | str => [percent, 115]
  | structString => [percent, 83]
  | int => [percent, 100]
  | complex d => d.written

def written (pieces : List Piece) : Bytes := pieces.flatMap Piece.written

/-- The text that a piece stands for, and the arguments behind it. -/
def Piece.text (vsnprintf : Vsnprintf δ) :
    Piece → List (Argument δ) → Option (Bytes × List (Argument δ))
  | literal c, args => some ([c.1], args)
  | str, .str s :: args => some (s, args)
  | structString, .structString x :: args => some (content x.1, args)
  | int, .int i :: args => some (decimalInt i.toInt, args)
  | complex d, args =>
    (vsnprintf d.written args).1.map fun text => (text, (vsnprintf d.written args).2)
  | _, _ => none

def textOf (vsnprintf : Vsnprintf δ) : List Piece → List (Argument δ) → Option Bytes
  | [], _ => some []
  | p :: pieces, args =>
    (p.text vsnprintf args).bind fun (text, args) => (textOf vsnprintf pieces args).map (text ++ ·)

/-- Behind the last whole directive there is nothing, or the beginning of one. -/
inductive Ending
  | whole
  | inside (flags : { flags : Bytes // (∀ c ∈ flags, isFormatFlag c = true) ∧ flags.length ≤ 29 })

def Ending.written : Ending → Bytes
  | whole => []
  | inside flags => percent :: flags.1

variable {memory : Memory} {vsnprintf : Vsnprintf δ} {st st' : StructString} {t t' : Bytes}
  {args rest : List (Argument δ)}

/-! Room for what is still to come, the last NUL byte included -/

structure Extended (st st' : StructString) (t : Bytes) : Prop where
  valid : Valid st'
  growby : st'.growby = st.growby
  content : content st' = content st ++ t
  room : ∀ len, Room st (t.length + (len + 1)) → Room st' (len + 1)

theorem Extended.of_appended (h : Valid st) (happended : Appended st st' t) : Extended st st' t :=
  ⟨happended.valid, happended.growby, happended.content, fun _ => Room.rest h happended⟩

theorem Extended.of_shortened (h : Valid st) (happended : Appended st st' (t ++ [0])) :
    Extended st (shortened st') t ∧ Terminated (shortened st') := by
  have hcontent : StringMemory.content st' = (StringMemory.content st ++ t) ++ [0] := by
    rw [happended.content, List.append_assoc]
  obtain ⟨hvalid, hcontent', hterminated, hlength⟩ := shortened_spec happended.valid hcontent
  refine ⟨⟨hvalid, happended.growby, hcontent', fun len hroom => ?_⟩, hterminated⟩
  have hsum : t.length + (len + 1) = (t ++ [0]).length + len := by
    rw [List.length_append, List.length_singleton]
    omega
  obtain ⟨n, henough, hlt⟩ := Room.rest h happended (hsum ▸ hroom)
  refine ⟨n, ?_, hlt⟩
  change (shortened st').length + (len + 1) ≤ st'.size + n * st'.growby
  omega

theorem Extended.trans {st'' : StructString} (h : Extended st st' t) (h' : Extended st' st'' t') :
    Extended st st'' (t ++ t') where
  valid := h'.valid
  growby := h'.growby.trans h.growby
  content := by rw [h'.content, h.content, List.append_assoc]
  room len hroom := by
    refine h'.room len (h.room (t'.length + len) ?_)
    rw [List.length_append] at hroom
    have hsum : t.length + (t'.length + len + 1) = t.length + t'.length + (len + 1) := by omega
    rwa [hsum]

theorem room_of_le {a b : Nat} (h : Room st b) (hle : a ≤ b) : Room st a := by
  obtain ⟨n, henough, hlt⟩ := h
  exact ⟨n, by omega, hlt⟩

/-! The scan of a directive -/

theorem flag_ne_zero {c : UInt8} (h : isFormatFlag c = true) : c ≠ 0 := by
  rintro rfl
  exact absurd h (by decide)

theorem sprintfLoop_flags {flags cfs msg : Bytes} (hflags : ∀ c ∈ flags, isFormatFlag c = true)
    (hlength : cfs.length + flags.length ≤ 29) :
    sprintfLoop memory vsnprintf (flags ++ msg) (some cfs) st args =
      sprintfLoop memory vsnprintf msg (some (cfs ++ flags)) st args := by
  induction flags generalizing cfs with
  | nil => simp
  | cons c flags ih =>
    obtain ⟨hc, hflags⟩ := List.forall_mem_cons.mp hflags
    rw [List.length_cons] at hlength
    have hshort : cfs.length < 29 := by omega
    rw [List.cons_append, sprintfLoop, if_neg (fun h => flag_ne_zero hc h.2), if_pos hc,
      if_pos hshort, ih hflags (by simpa using by omega), List.append_assoc]
    rfl

theorem Directive.cstr_written (d : Directive) : cstr d.written = d.written := by
  have hplain : ∀ c ∈ d.written, c ≠ 0 := by
    intro c hc
    rcases List.mem_cons.mp hc with rfl | hc
    · decide
    · rcases List.mem_append.mp hc with hc | hc
      · exact flag_ne_zero (d.flags_ok c hc)
      · rw [List.mem_singleton.mp hc]
        exact d.conversion_ok.2
  exact cstr_eq fun hmem => hplain 0 hmem rfl

/-- A directive for vsnprintf() is one call of string_concatb. -/
theorem sprintfLoop_complex (d : Directive) (msg : Bytes) {text : Option Bytes}
    (htext : vsnprintf d.written args = (text, rest)) :
    sprintfLoop memory vsnprintf (d.written ++ msg) none st args = (do
      let (ok, st) ← stringConcatb memory st (printed text).1 (printed text).2
      if ok then sprintfLoop memory vsnprintf msg none st rest else return (false, st)) := by
  have hsplit : d.written ++ msg = percent :: (d.flags ++ d.conversion :: msg) := by
    simp [Directive.written]
  have hbegin : ¬ percent = (0 : UInt8) := by decide
  have hsimple : ∀ c, c = 115 ∨ c = 83 ∨ c = 100 → ¬ (d.flags = [] ∧ d.conversion = c) := by
    rintro c hc ⟨hempty, rfl⟩
    have hother := d.not_simple hempty
    simp [hother] at hc
  have hdirective : directive memory vsnprintf st d.flags d.conversion args = (do
      let r ← stringConcatb memory st (printed text).1 (printed text).2
      return (r, rest)) := by
    have hcstr : cstr (percent :: d.flags ++ [d.conversion]) = d.written := d.cstr_written
    unfold directive
    rw [if_neg (hsimple 115 (by simp)), if_neg (hsimple 83 (by simp)),
      if_neg (hsimple 100 (by simp)), hcstr, defprintf, htext]
  have hflag : ¬ isFormatFlag d.conversion = true := by simp [d.conversion_ok.1]
  rw [hsplit, sprintfLoop, if_neg hbegin, if_pos rfl,
    sprintfLoop_flags d.flags_ok (by simpa using d.flags_length), List.nil_append, sprintfLoop,
    if_neg (fun h => d.conversion_ok.2 h.2), if_neg hflag, hdirective]
  cases stringConcatb memory st (printed text).1 (printed text).2 <;> rfl

/-! One piece -/

/-- What is appended for a directive: a text that leaves no room in the buffer for its last
byte loses it to the NUL byte, a longer one is not to be had. -/
def printedText (text : Bytes) : Option Bytes :=
  if text.length ≤ 4096 then some ((text.take 4095 ++ [0]).take text.length) else none

def Piece.actual (vsnprintf : Vsnprintf δ) (p : Piece) (args : List (Argument δ)) :
    Option (Bytes × List (Argument δ)) :=
  match p with
  | complex _ =>
    (p.text vsnprintf args).bind fun (text, rest) => (printedText text).map fun t => (t, rest)
  | _ => p.text vsnprintf args

theorem sprintfLoop_simple {c : UInt8} (hflag : isFormatFlag c = false) (hc : c ≠ 0)
    (hdirective : directive memory vsnprintf st [] c args = returns ((true, st'), rest))
    (msg : Bytes) :
    sprintfLoop memory vsnprintf ([percent, c] ++ msg) none st args =
      sprintfLoop memory vsnprintf msg none st' rest := by
  have hbegin : ¬ percent = (0 : UInt8) := by decide
  have hnot : ¬ isFormatFlag c = true := by simp [hflag]
  change sprintfLoop memory vsnprintf (percent :: c :: msg) none st args = _
  rw [sprintfLoop, if_neg hbegin, if_pos rfl, sprintfLoop, if_neg (fun h => hc h.2),
    if_neg hnot, hdirective]
  rfl

/-- A directive for vsnprintf() whose text is to be had. -/
theorem sprintfLoop_printed (h : Valid st) (hgrow : 0 < st.growby)
    (hmemory : ∀ n, memory n ≠ none) {d : Directive}
    (htext : (Piece.complex d).actual vsnprintf args = some (t, rest)) (hroom : Room st t.length) :
    ∃ st', Extended st st' t ∧ ∀ msg,
      sprintfLoop memory vsnprintf ((Piece.complex d).written ++ msg) none st args =
        sprintfLoop memory vsnprintf msg none st' rest := by
  obtain ⟨⟨text, rest'⟩, hpiece, hprinted⟩ := Option.bind_eq_some_iff.mp htext
  obtain ⟨text', htext', heq⟩ := Option.map_eq_some_iff.mp hpiece
  cases heq
  obtain ⟨t', ht', heq⟩ := Option.map_eq_some_iff.mp hprinted
  cases heq
  unfold printedText at ht'
  split at ht'
  · rename_i hshort
    cases ht'
    have hbuffer : text.length ≤ (text.take 4095 ++ [0]).length := by
      simp only [List.length_append, List.length_take, List.length_singleton]
      omega
    rw [List.length_take_of_le hbuffer] at hroom
    obtain ⟨st', hreturns, happended⟩ :=
      stringConcatb_appended h hgrow hroom hbuffer fun _ _ => hmemory _
    refine ⟨st', .of_appended h happended, fun msg => ?_⟩
    have hint : text.length < 2 ^ 31 := by omega
    have hvsnprintf : vsnprintf d.written args = (some text, (vsnprintf d.written args).2) :=
      Prod.ext htext' rfl
    rw [Piece.written, sprintfLoop_complex d msg hvsnprintf, printed, if_pos hint, hreturns]
    rfl
  · cases ht'

/-- A piece whose text is to be had. -/
theorem sprintfLoop_piece (h : Valid st) (hgrow : 0 < st.growby) (hmemory : ∀ n, memory n ≠ none)
    {p : Piece} (htext : p.actual vsnprintf args = some (t, rest))
    (hroom : Room st (t.length + 1)) :
    ∃ st', Extended st st' t ∧ ∀ msg, sprintfLoop memory vsnprintf (p.written ++ msg) none st args =
      sprintfLoop memory vsnprintf msg none st' rest := by
  have hless : Room st t.length := room_of_le hroom (Nat.le_succ _)
  cases p with
  | literal c =>
    obtain ⟨c, hc⟩ := c
    cases htext
    obtain ⟨st', hreturns, happended⟩ :=
      stringPutc_appended (c := c) h hgrow hless fun _ => hmemory _
    refine ⟨st', .of_appended h happended, fun msg => ?_⟩
    rw [Piece.written, List.singleton_append, sprintfLoop, if_neg hc.1, if_neg hc.2, hreturns]
    rfl
  | str =>
    match args, htext with
    | .str s :: args, htext =>
      cases htext
      obtain ⟨st', hreturns, happended⟩ :=
        stringConcat_appended h hgrow hroom fun _ _ => hmemory _
      refine ⟨_, (Extended.of_shortened h happended).1, sprintfLoop_simple rfl (by decide) ?_⟩
      rw [directive, if_pos ⟨rfl, rfl⟩, hreturns]
      rfl
  | structString =>
    match args, htext with
    | .structString x :: args, htext =>
      cases htext
      have hlength : x.1.length ≤ x.1.s.cells.length := by
        rw [x.2.cells_length]
        exact x.2.length_le
      rw [x.2.content_length] at hless
      obtain ⟨st', hreturns, happended⟩ :=
        stringConcatb_appended h hgrow hless hlength fun _ _ => hmemory _
      refine ⟨st', .of_appended h happended, sprintfLoop_simple rfl (by decide) ?_⟩
      have hother : ¬ (([] : Bytes) = [] ∧ (83 : UInt8) = 115) := by decide
      rw [directive, if_neg hother, if_pos ⟨rfl, rfl⟩, stringConcats, hreturns]
      rfl
  | int =>
    match args, htext with
    | .int i :: args, htext =>
      cases htext
      obtain ⟨st', hreturns, happended⟩ :=
        stringConcatb_appended h hgrow hless (Nat.le_refl _) fun _ _ => hmemory _
      rw [List.take_length] at happended
      refine ⟨st', .of_appended h happended, sprintfLoop_simple rfl (by decide) ?_⟩
      have hstr : ¬ (([] : Bytes) = [] ∧ (100 : UInt8) = 115) := by decide
      have hstructString : ¬ (([] : Bytes) = [] ∧ (100 : UInt8) = 83) := by decide
      rw [directive, if_neg hstr, if_neg hstructString, if_pos ⟨rfl, rfl⟩, stringPutint_eq,
        hreturns]
      rfl
  | complex d => exact sprintfLoop_printed h hgrow hmemory htext hless

/-- A directive whose text is not to be had ends the call without success. -/
theorem sprintfLoop_unprintable {p : Piece} (htext : p.text vsnprintf args = some (t, rest))
    (hnone : p.actual vsnprintf args = none) (msg : Bytes) :
    sprintfLoop memory vsnprintf (p.written ++ msg) none st args ≠ returns (true, st') := by
  cases p with
  | literal c => cases htext.symm.trans hnone
  | str => cases htext.symm.trans hnone
  | structString => cases htext.symm.trans hnone
  | int => cases htext.symm.trans hnone
  | complex d =>
    obtain ⟨text, htext', heq⟩ := Option.map_eq_some_iff.mp htext
    cases heq
    have hlong : 4096 < t.length := by
      by_contra hshort
      simp [Piece.actual, htext, printedText, Nat.not_lt.mp hshort] at hnone
    have hvsnprintf : vsnprintf d.written args = (some t, (vsnprintf d.written args).2) :=
      Prod.ext htext' rfl
    rw [Piece.written, sprintfLoop_complex d msg hvsnprintf]
    intro hreturns
    obtain ⟨⟨ok, st₁⟩, hconcatb, hrest⟩ := bind_eq_returns.mp hreturns
    cases ok with
    | false => cases hrest
    | true =>
      have hbuffer := stringConcatb_true hconcatb
      simp only [printed, List.length_append, List.length_take, List.length_singleton] at hbuffer
      split at hbuffer
      · omega
      · simp only [sizeDiff, sizeT] at hbuffer
        omega

/-! A whole format -/

/-- The text has a place in the buffer in front of the NUL byte, or is the one that ends in it. -/
def ShortEnough (text : Bytes) : Prop :=
  text.length < 4096 ∨ text.length = 4096 ∧ text.getLast? = some 0

def Piece.isComplex : Piece → Bool
  | complex _ => true
  | _ => false

/-- The texts of all directives that are left to vsnprintf() are short enough. -/
def Fits (vsnprintf : Vsnprintf δ) : List Piece → List (Argument δ) → Prop
  | [], _ => True
  | p :: pieces, args => ∀ text rest, p.text vsnprintf args = some (text, rest) →
    (p.isComplex = true → ShortEnough text) ∧ Fits vsnprintf pieces rest

def actualOf (vsnprintf : Vsnprintf δ) : List Piece → List (Argument δ) → Option Bytes
  | [], _ => some []
  | p :: pieces, args =>
    (p.actual vsnprintf args).bind fun (text, args) =>
      (actualOf vsnprintf pieces args).map (text ++ ·)

variable {pieces : List Piece}

theorem printedText_length (h : printedText t = some t') : t'.length = t.length := by
  unfold printedText at h
  split at h
  · cases h
    refine List.length_take_of_le ?_
    simp only [List.length_append, List.length_take, List.length_singleton]
    omega
  · cases h

theorem printedText_eq_self : printedText t = some t ↔ ShortEnough t := by
  unfold printedText ShortEnough
  rcases Nat.lt_trichotomy t.length 4096 with hshort | hfull | hlong
  · have htake : t.take 4095 = t := List.take_of_length_le (by omega)
    rw [if_pos (by omega), htake]
    simp [hshort]
  · have hne : t ≠ [] := by
      rintro rfl
      cases hfull
    have hinit : t.take 4095 = t.dropLast := by
      rw [List.dropLast_eq_take, hfull]
    have hall : (t.dropLast ++ [0]).take t.length = t.dropLast ++ [0] := by
      refine List.take_of_length_le ?_
      simp only [List.length_append, List.length_dropLast, List.length_singleton]
      omega
    rw [if_pos (by omega), hinit, hall]
    have hlast := List.dropLast_concat_getLast hne
    rw [List.getLast?_eq_some_getLast hne]
    constructor
    · intro h
      have hsame := (Option.some.inj h).trans hlast.symm
      have hzero := List.append_cancel_left hsame
      exact .inr ⟨hfull, congrArg some (List.singleton_inj.mp hzero).symm⟩
    · rintro (hless | ⟨-, hzero⟩)
      · omega
      · rw [Option.some.inj hzero] at hlast
        rw [hlast]
  · rw [if_neg (by omega)]
    constructor
    · intro h
      cases h
    · rintro (hless | ⟨heq, -⟩) <;> omega

/-- What a piece appends, beside the text that it stands for. -/
theorem Piece.actual_cases {p : Piece} (htext : p.text vsnprintf args = some (t, rest)) :
    (p.actual vsnprintf args = none ∧ ¬ (p.isComplex = true → ShortEnough t)) ∨
      ∃ t', p.actual vsnprintf args = some (t', rest) ∧ t'.length = t.length ∧
        (t' = t ↔ (p.isComplex = true → ShortEnough t)) := by
  cases p with
  | complex d =>
    have hactual : Piece.actual vsnprintf (.complex d) args =
        (printedText t).map fun t => (t, rest) := by
      rw [Piece.actual, htext]
      rfl
    cases hprinted : printedText t with
    | none =>
      refine .inl ⟨by rw [hactual, hprinted]; rfl, fun hfits => ?_⟩
      cases hprinted.symm.trans (printedText_eq_self.mpr (hfits rfl))
    | some t' =>
      refine .inr ⟨t', by rw [hactual, hprinted]; rfl, printedText_length hprinted, ?_⟩
      constructor
      · rintro rfl _
        exact printedText_eq_self.mp hprinted
      · intro hfits
        exact Option.some.inj (hprinted.symm.trans (printedText_eq_self.mpr (hfits rfl)))
  | _ => exact .inr ⟨t, htext, rfl, by simp [isComplex]⟩

theorem actualOf_cons {p : Piece} (h : p.actual vsnprintf args = some (t, rest)) :
    actualOf vsnprintf (p :: pieces) args = (actualOf vsnprintf pieces rest).map (t ++ ·) := by
  rw [actualOf, h]
  rfl

/-- The pieces together append what they stand for exactly if all of them do. -/
theorem actualOf_cases (htext : textOf vsnprintf pieces args = some t) :
    (actualOf vsnprintf pieces args = none ∧ ¬ Fits vsnprintf pieces args) ∨
      ∃ t', actualOf vsnprintf pieces args = some t' ∧ t'.length = t.length ∧
        (t' = t ↔ Fits vsnprintf pieces args) := by
  induction pieces generalizing args t with
  | nil =>
    cases htext
    exact .inr ⟨[], rfl, rfl, by simp [Fits]⟩
  | cons p pieces ih =>
    obtain ⟨⟨text, rest⟩, hp, hmap⟩ := Option.bind_eq_some_iff.mp htext
    obtain ⟨more, hmore, rfl⟩ := Option.map_eq_some_iff.mp hmap
    have hfits : Fits vsnprintf (p :: pieces) args ↔
        (p.isComplex = true → ShortEnough text) ∧ Fits vsnprintf pieces rest := by
      refine ⟨fun h => h text rest hp, fun h text' rest' hp' => ?_⟩
      cases hp.symm.trans hp'
      exact h
    rw [hfits]
    rcases Piece.actual_cases hp with ⟨hnone, hlong⟩ | ⟨text', hactual, hlength, hexact⟩
    · exact .inl ⟨by rw [actualOf, hnone]; rfl, fun h => hlong h.1⟩
    · rw [actualOf_cons hactual]
      rcases ih hmore with ⟨hnone, hnot⟩ | ⟨more', hactual', hlength', hexact'⟩
      · exact .inl ⟨by rw [hnone]; rfl, fun h => hnot h.2⟩
      · refine .inr ⟨text' ++ more', by rw [hactual']; rfl, ?_, ?_⟩
        · rw [List.length_append, List.length_append, hlength, hlength']
        · rw [← hexact, ← hexact']
          constructor
          · intro hall
            exact List.append_inj hall hlength
          · rintro ⟨rfl, rfl⟩
            rfl

/-- The loop over pieces whose texts are to be had. -/
theorem sprintfLoop_pieces (h : Valid st) (hgrow : 0 < st.growby)
    (hmemory : ∀ n, memory n ≠ none) (htext : actualOf vsnprintf pieces args = some t)
    (hroom : Room st (t.length + 1)) :
    ∃ st' rest, Extended st st' t ∧ ∀ msg,
      sprintfLoop memory vsnprintf (written pieces ++ msg) none st args =
        sprintfLoop memory vsnprintf msg none st' rest := by
  induction pieces generalizing args st t with
  | nil =>
    cases htext
    refine ⟨st, args, ⟨h, rfl, (List.append_nil _).symm, fun len hlen => ?_⟩, fun msg => rfl⟩
    rwa [List.length_nil, Nat.zero_add] at hlen
  | cons p pieces ih =>
    obtain ⟨⟨text, rest⟩, hp, hmap⟩ := Option.bind_eq_some_iff.mp htext
    obtain ⟨more, hmore, rfl⟩ := Option.map_eq_some_iff.mp hmap
    rw [List.length_append] at hroom
    obtain ⟨st₁, hextended, hloop⟩ :=
      sprintfLoop_piece h hgrow hmemory hp (room_of_le hroom (by omega))
    have hgrow₁ : 0 < st₁.growby := by
      rw [hextended.growby]
      exact hgrow
    have hroom₁ := hextended.room more.length (room_of_le hroom (by omega))
    obtain ⟨st₂, rest', hextended', hloop'⟩ := ih hextended.valid hgrow₁ hmore hroom₁
    refine ⟨st₂, rest', hextended.trans hextended', fun msg => ?_⟩
    rw [written, List.flatMap_cons, List.append_assoc, hloop]
    exact hloop' msg

/-- With a directive among the pieces whose text is not to be had there is no success. -/
theorem sprintfLoop_unprintable_piece (h : Valid st) (hgrow : 0 < st.growby)
    (hmemory : ∀ n, memory n ≠ none) (htext : textOf vsnprintf pieces args = some t)
    (hnone : actualOf vsnprintf pieces args = none) (hroom : Room st (t.length + 1))
    (msg : Bytes) :
    sprintfLoop memory vsnprintf (written pieces ++ msg) none st args ≠ returns (true, st') := by
  induction pieces generalizing args st t with
  | nil => cases hnone
  | cons p pieces ih =>
    obtain ⟨⟨text, rest⟩, hp, hmap⟩ := Option.bind_eq_some_iff.mp htext
    obtain ⟨more, hmore, rfl⟩ := Option.map_eq_some_iff.mp hmap
    rw [List.length_append] at hroom
    rw [written, List.flatMap_cons, List.append_assoc]
    rcases Piece.actual_cases hp with ⟨hactual, -⟩ | ⟨text', hactual, hlength, -⟩
    · exact sprintfLoop_unprintable hp hactual _
    · obtain ⟨st₁, hextended, hloop⟩ :=
        sprintfLoop_piece h hgrow hmemory hactual (room_of_le hroom (by omega))
      have hgrow₁ : 0 < st₁.growby := by
        rw [hextended.growby]
        exact hgrow
      have hroom₁ := hextended.room more.length (room_of_le hroom (by omega))
      have hnone' : actualOf vsnprintf pieces rest = none := by
        rw [actualOf_cons hactual] at hnone
        exact Option.map_eq_none_iff.mp hnone
      rw [hloop]
      exact ih hextended.valid hgrow₁ hmore hnone' hroom₁

/-! The end of the format -/

/-- A percent sign alone may end the format, flags behind it may not. -/
def Ending.Finished : Ending → Prop
  | whole => True
  | inside flags => flags.1 = []

theorem sprintfLoop_finished {ending : Ending} (h : ending.Finished) :
    sprintfLoop memory vsnprintf (ending.written ++ [0]) none st args =
      putTerminator memory st := by
  cases ending with
  | whole => rfl
  | inside flags =>
    obtain ⟨flags, hflags⟩ := flags
    obtain rfl : flags = [] := h
    rfl

/-- Behind flags the loop takes the end of the format for a directive and goes past it. -/
theorem sprintfLoop_unfinished {ending : Ending} (h : ¬ ending.Finished) :
    sprintfLoop memory vsnprintf (ending.written ++ [0]) none st args ≠ returns (true, st') := by
  cases ending with
  | whole => exact absurd trivial h
  | inside flags =>
    obtain ⟨flags, hflags, hlength⟩ := flags
    have hne : flags ≠ [] := h
    have hbegin : ¬ percent = (0 : UInt8) := by decide
    have hflag : ¬ isFormatFlag 0 = true := by decide
    change sprintfLoop memory vsnprintf (percent :: (flags ++ [0])) none st args ≠ _
    rw [sprintfLoop, if_neg hbegin, if_pos rfl, sprintfLoop_flags hflags (by simpa using hlength),
      List.nil_append, sprintfLoop, if_neg (fun h => hne h.1), if_neg hflag]
    intro hreturns
    obtain ⟨⟨⟨ok, st₁⟩, rest⟩, -, hrest⟩ := bind_eq_returns.mp hreturns
    cases ok with
    | false => cases hrest
    | true => cases hrest

/-- The call succeeds, and the text with a NUL byte behind it is all that it puts in. -/
def Exact (memory : Memory) (vsnprintf : Vsnprintf δ) (st : StructString) (msg : Bytes)
    (args : List (Argument δ)) (t : Bytes) : Prop :=
  ∃ st', stringConcatSprintf memory vsnprintf st msg args = returns (true, st') ∧
    Extended st st' t ∧ Terminated st'

variable {ending : Ending}

theorem sprintf_written (pieces : List Piece) (ending : Ending) :
    stringConcatSprintf memory vsnprintf st (written pieces ++ ending.written) args =
      sprintfLoop memory vsnprintf (written pieces ++ (ending.written ++ [0])) none st args := by
  rw [stringConcatSprintf, List.append_assoc]

/-- A finished format appends what its pieces do, and the NUL byte. -/
theorem sprintf_finished (h : Valid st) (hgrow : 0 < st.growby) (hmemory : ∀ n, memory n ≠ none)
    (htext : actualOf vsnprintf pieces args = some t) (hroom : Room st (t.length + 1))
    (hending : ending.Finished) :
    Exact memory vsnprintf st (written pieces ++ ending.written) args t := by
  obtain ⟨st₁, rest, hextended, hloop⟩ := sprintfLoop_pieces h hgrow hmemory htext hroom
  have hgrow₁ : 0 < st₁.growby := by
    rw [hextended.growby]
    exact hgrow
  obtain ⟨st₂, hreturns, happended⟩ := putTerminator_appended hextended.valid hgrow₁
    (hextended.room 0 (by simpa using hroom)) fun _ => hmemory _
  obtain ⟨hextended₂, hterminated⟩ := Extended.of_shortened (t := []) hextended.valid happended
  have hall := hextended.trans hextended₂
  rw [List.append_nil] at hall
  refine ⟨shortened st₂, ?_, hall, hterminated⟩
  rw [sprintf_written, hloop, sprintfLoop_finished hending, hreturns]

theorem fits_of_exact (h : Valid st) (hgrow : 0 < st.growby) (hmemory : ∀ n, memory n ≠ none)
    (htext : textOf vsnprintf pieces args = some t) (hroom : Room st (t.length + 1))
    (hexact : Exact memory vsnprintf st (written pieces ++ ending.written) args t) :
    Fits vsnprintf pieces args ∧ ending.Finished := by
  obtain ⟨st', hreturns, hextended, -⟩ := hexact
  rcases actualOf_cases htext with ⟨hnone, -⟩ | ⟨t', hactual, hlength, hsame⟩
  · rw [sprintf_written] at hreturns
    exact absurd hreturns (sprintfLoop_unprintable_piece h hgrow hmemory htext hnone hroom _)
  · have hroom' : Room st (t'.length + 1) := hlength ▸ hroom
    by_cases hending : ending.Finished
    · obtain ⟨st'', hreturns'', hextended'', -⟩ :=
        sprintf_finished h hgrow hmemory hactual hroom' hending
      rw [hreturns] at hreturns''
      cases hreturns''
      have hcontent := hextended.content.symm.trans hextended''.content
      exact ⟨hsame.mp (List.append_cancel_left hcontent).symm, hending⟩
    · obtain ⟨st₁, rest, -, hloop⟩ := sprintfLoop_pieces h hgrow hmemory hactual hroom'
      rw [sprintf_written, hloop] at hreturns
      exact absurd hreturns (sprintfLoop_unfinished hending)

/-- A vsnprintf() for `%%` and for numbers with a width. -/
def widthVsnprintf : Vsnprintf Empty := fun fmt args =>
  if fmt = [percent, percent] then (some [percent], args)
  else
    match args with
    | .int i :: args =>
      let text := decimalInt i.toInt
      (some (List.replicate (digitsValue fmt.tail.dropLast - text.length) space ++ text), args)
    | _ => (none, args)

/-- Of all formats with a text for their directives, exactly those come out right whose texts
are short enough, and that do not end behind flags. -/
theorem exact_iff (h : Valid st) (hgrow : 0 < st.growby) (hmemory : ∀ n, memory n ≠ none)
    (htext : textOf vsnprintf pieces args = some t) (hroom : Room st (t.length + 1)) :
    Exact memory vsnprintf st (written pieces ++ ending.written) args t ↔
      Fits vsnprintf pieces args ∧ ending.Finished := by
  refine ⟨fits_of_exact h hgrow hmemory htext hroom, fun hfits => ?_⟩
  rcases actualOf_cases htext with ⟨-, hnot⟩ | ⟨t', hactual, hlength, hsame⟩
  · exact absurd hfits.1 hnot
  · obtain rfl := hsame.mpr hfits.1
    exact sprintf_finished h hgrow hmemory hactual hroom hfits.2

def widthDirective (digits : Bytes) (hdigits : ∀ c ∈ digits, isFormatFlag c = true)
    (hlength : digits.length ≤ 29) (hne : digits ≠ []) : Directive where
  flags := digits
  conversion := 100
  flags_ok := hdigits
  flags_length := hlength
  conversion_ok := by decide
  not_simple h := absurd h hne

def fiveWide : Directive := widthDirective [53] (by decide) (by decide) (by decide)

/-- `%5000d` -/
def fiveThousandWide : Directive :=
  widthDirective [53, 48, 48, 48] (by decide) (by decide) (by decide)

theorem width_text {digits : Bytes} (hdigits : ∀ c ∈ digits, isFormatFlag c = true)
    (hlength : digits.length ≤ 29) (hne : digits ≠ []) (i : Int32)
    (args : List (Argument Empty)) :
    Piece.text widthVsnprintf (.complex (widthDirective digits hdigits hlength hne))
      (.int i :: args) = some (List.replicate (digitsValue digits - (decimalInt i.toInt).length)
        space ++ decimalInt i.toInt, args) := by
  have hfmt : (widthDirective digits hdigits hlength hne).written = percent :: (digits ++ [100]) :=
    rfl
  have hother : ¬ percent :: (digits ++ [100]) = [percent, percent] := by
    intro h
    have hsame := congrArg List.length h
    have hpos := List.length_pos_of_ne_nil hne
    simp only [List.length_cons, List.length_append, List.length_nil] at hsame
    omega
  rw [Piece.text, hfmt, widthVsnprintf, if_neg hother, List.tail_cons, List.dropLast_concat]
  rfl

def plenty : Memory := fun _ => some fun _ => 0

theorem room_lazyinit {growby len k : Nat} (hroom : len ≤ k * growby)
    (hfits : k * growby < 2 ^ 64) : Room (stringLazyinit growby) len :=
  ⟨k, by simpa [stringLazyinit] using hroom, by simpa [stringLazyinit] using hfits⟩

theorem exact_fiveWide :
    Exact plenty widthVsnprintf (stringLazyinit 512) (ascii "%5d") [.int 1] (ascii "    1") := by
  have hpiece : Piece.text widthVsnprintf (.complex fiveWide) [.int 1] =
      some (ascii "    1", []) := width_text _ _ _ 1 []
  have htext : textOf widthVsnprintf [.complex fiveWide] [.int 1] = some (ascii "    1") := by
    rw [textOf, hpiece]
    rfl
  have hformat : ascii "%5d" = written [.complex fiveWide] ++ Ending.whole.written := by
    decide +kernel
  rw [hformat]
  refine (exact_iff (valid_empty (by decide)) (by decide) (fun _ => Option.some_ne_none _) htext
    (room_lazyinit (k := 1) (by decide) (by decide))).mpr ⟨fun text rest htext' => ?_, trivial⟩
  cases hpiece.symm.trans htext'
  exact ⟨fun _ => .inl (by decide), trivial⟩

/-- What is missing in the buffer is read from behind it. -/
theorem fiveThousandWide_wrong :
    ascii "%5000d" = written [.complex fiveThousandWide] ∧
      textOf widthVsnprintf [.complex fiveThousandWide] [.int 1] =
        some (List.replicate 4999 space ++ ascii "1") ∧
      ¬ Exact plenty widthVsnprintf (stringLazyinit 512) (ascii "%5000d") [.int 1]
        (List.replicate 4999 space ++ ascii "1") := by
  have hformat : ascii "%5000d" = written [.complex fiveThousandWide] := by decide +kernel
  have hvalue : digitsValue [53, 48, 48, 48] - (decimalInt (1 : Int32).toInt).length = 4999 := by
    decide +kernel
  have hone : decimalInt (1 : Int32).toInt = ascii "1" := by decide +kernel
  have hpiece : Piece.text widthVsnprintf (.complex fiveThousandWide) [.int 1] =
      some (List.replicate 4999 space ++ ascii "1", []) := by
    rw [← hvalue, ← hone]
    exact width_text _ _ _ 1 []
  have htext : textOf widthVsnprintf [.complex fiveThousandWide] [.int 1] =
      some (List.replicate 4999 space ++ ascii "1") := by
    rw [textOf, hpiece]
    exact congrArg some (List.append_nil _)
  have hlength : (List.replicate 4999 space ++ ascii "1").length = 5000 := by
    rw [List.length_append, List.length_replicate]
    rfl
  refine ⟨hformat, htext, fun hexact => ?_⟩
  have hwritten : ascii "%5000d" = written [.complex fiveThousandWide] ++ Ending.whole.written := by
    rw [hformat, Ending.written, List.append_nil]
  rw [hwritten] at hexact
  have hroom : Room (stringLazyinit 512) 5001 := room_lazyinit (k := 10) (by decide) (by decide)
  have hfits := (fits_of_exact (valid_empty (by decide)) (by decide)
    (fun _ => Option.some_ne_none _) htext (by rwa [hlength]) hexact).1
  rcases (hfits _ _ hpiece).1 rfl with hless | ⟨hequal, -⟩ <;> omega

/-! The directives that the program uses most -/

inductive SimplePiece
  | literal (c : Literal)
  | str
  | structString
  | int
  | percentSign

def SimplePiece.piece : SimplePiece → Piece
  | literal c => .literal c
  | str => .str
  | structString => .structString
  | int => .int
  | percentSign => .complex StringSprintf.percentSign

def formatOf (pieces : List SimplePiece) : Bytes := written (pieces.map SimplePiece.piece)

/-- The literal text with every directive replaced by its argument. -/
def replaced : List SimplePiece → List (Argument δ) → Option Bytes
  | [], _ => some []
  | .literal c :: pieces, args => (replaced pieces args).map ([c.1] ++ ·)
  | .str :: pieces, .str s :: args => (replaced pieces args).map (s ++ ·)
  | .structString :: pieces, .structString x :: args =>
    (replaced pieces args).map (content x.1 ++ ·)
  | .int :: pieces, .int i :: args => (replaced pieces args).map (decimalInt i.toInt ++ ·)
  | .percentSign :: pieces, args => (replaced pieces args).map ([percent] ++ ·)
  | _, _ => none

theorem actualOf_replaced
    (hpercent : ∀ args, vsnprintf (ascii "%%") args = (some (ascii "%"), args))
    (pieces : List SimplePiece) (args : List (Argument δ)) :
    actualOf vsnprintf (pieces.map SimplePiece.piece) args = replaced pieces args := by
  have hcall : ∀ args, vsnprintf percentSign.written args = (some [percent], args) := hpercent
  induction pieces generalizing args with
  | nil => rfl
  | cons p pieces ih =>
    cases p with
    | literal c => rw [replaced, ← ih]; rfl
    | percentSign =>
      have htext : Piece.text vsnprintf (.complex percentSign) args = some ([percent], args) := by
        rw [Piece.text, hcall]
        rfl
      have hactual : Piece.actual vsnprintf (.complex percentSign) args =
          some ([percent], args) := by
        rw [Piece.actual, htext]
        rfl
      rw [replaced, ← ih]
      exact actualOf_cons hactual
    | str =>
      match args with
      | [] => rfl
      | .str s :: args => rw [replaced, ← ih]; rfl
      | .structString x :: args => rfl
      | .int i :: args => rfl
      | .other d :: args => rfl
    | structString =>
      match args with
      | [] => rfl
      | .str s :: args => rfl
      | .structString x :: args => rw [replaced, ← ih]; rfl
      | .int i :: args => rfl
      | .other d :: args => rfl
    | int =>
      match args with
      | [] => rfl
      | .str s :: args => rfl
      | .structString x :: args => rfl
      | .int i :: args => rw [replaced, ← ih]; rfl
      | .other d :: args => rfl

/-- A call with these directives and their arguments puts in the replaced text, and a NUL byte
behind it that is not counted. -/
theorem sprintf_appends {pieces : List SimplePiece}
    (hpercent : ∀ args, vsnprintf (ascii "%%") args = (some (ascii "%"), args))
    (h : Valid st) (hgrow : 0 < st.growby) (hmemory : ∀ n, memory n ≠ none)
    (htext : replaced pieces args = some t) (hroom : Room st (t.length + 1)) :
    ∃ st', stringConcatSprintf memory vsnprintf st (formatOf pieces) args = returns (true, st') ∧
      st'.s.cells.take st'.length = content st ++ t ∧ st'.length = st.length + t.length ∧
      st'.s.cells[st'.length]? = some 0 ∧ Valid st' := by
  rw [← actualOf_replaced hpercent] at htext
  have hfinished : Ending.whole.Finished := trivial
  obtain ⟨st', hreturns, hextended, hterminated⟩ :=
    sprintf_finished h hgrow hmemory htext hroom hfinished
  rw [Ending.written, List.append_nil] at hreturns
  refine ⟨st', hreturns, hextended.content, ?_, hterminated, hextended.valid⟩
  have hlength := congrArg List.length hextended.content
  rwa [List.length_append, hextended.valid.content_length, h.content_length] at hlength

/-- A number behind literal text. -/
theorem sprintf_appends_port : ∃ st',
    stringConcatSprintf plenty widthVsnprintf (stringLazyinit 512)
      (formatOf [.literal ⟨80, by decide⟩, .literal ⟨61, by decide⟩, .int]) [.int 655] =
        returns (true, st') ∧
    st'.s.cells.take st'.length = [] ++ ascii "P=655" ∧ st'.length = 0 + (ascii "P=655").length ∧
    st'.s.cells[st'.length]? = some 0 ∧ Valid st' :=
  sprintf_appends (fun _ => rfl) (valid_empty (by decide)) (by decide)
    (fun _ => Option.some_ne_none _) (by decide +kernel)
    (room_lazyinit (k := 1) (by decide +kernel) (by decide))

end ChaosVpn.StringSprintf
