import Mathlib.Data.List.Basic

/-! Extended regular expressions with anchors and bounded repetition, and how they are read from
a text. What an expression without anchors matches does not depend on the text around it. -/

namespace ExtendedRegex

variable {α : Type}

inductive Regex (α : Type)
  | set (intervals : List (α × α))
  | start
  | stop
  | seq (first second : Regex α)
  | alt (first second : Regex α)
  | repeated (body : Regex α) (least most : Nat)
  deriving DecidableEq

/-- Matches of one kind, one right behind the other. -/
def Iterated (m : List α → List α → List α → Prop) : Nat → List α → List α → List α → Prop
  | 0, _, text, _ => text = []
  | n + 1, before, text, after => ∃ first rest, text = first ++ rest ∧
      m before first (rest ++ after) ∧ Iterated m n (before ++ first) rest after

theorem iterated_iff {m : List α → List α → List α → Prop} {d : List α → Prop}
    {before text after : List α}
    (h : ∀ before text after, m before text after ↔ d text) {n : Nat} :
    Iterated m n before text after ↔
      ∃ pieces : List (List α), pieces.length = n ∧ pieces.flatten = text ∧
        ∀ piece ∈ pieces, d piece := by
  induction n generalizing before text with
  | zero =>
    constructor
    · rintro rfl
      exact ⟨[], rfl, rfl, fun _ hpiece => nomatch hpiece⟩
    · rintro ⟨pieces, hlength, rfl, -⟩
      rw [List.length_eq_zero_iff.mp hlength]
      rfl
  | succ n ih =>
    constructor
    · rintro ⟨first, rest, rfl, hfirst, hrest⟩
      obtain ⟨pieces, hlength, rfl, hpieces⟩ := ih.mp hrest
      refine ⟨first :: pieces, by rw [List.length_cons, hlength], rfl, ?_⟩
      exact List.forall_mem_cons.mpr ⟨(h _ _ _).mp hfirst, hpieces⟩
    · rintro ⟨pieces, hlength, rfl, hpieces⟩
      cases pieces with
      | nil => cases hlength
      | cons first pieces =>
        obtain ⟨hfirst, hpieces⟩ := List.forall_mem_cons.mp hpieces
        exact ⟨first, pieces.flatten, rfl, (h _ _ _).mpr hfirst,
          ih.mpr ⟨pieces, Nat.succ.inj hlength, rfl, hpieces⟩⟩

section Order
variable [LE α]

def InSet (intervals : List (α × α)) (c : α) : Prop := ∃ i ∈ intervals, i.1 ≤ c ∧ c ≤ i.2

namespace Regex

/-- What an expression matches between the text before and the text after it. -/
def Matches : Regex α → List α → List α → List α → Prop
  | set intervals, _, text, _ => ∃ c, text = [c] ∧ InSet intervals c
  | start, before, text, _ => before = [] ∧ text = []
  | stop, _, text, after => text = [] ∧ after = []
  | seq a b, before, text, after => ∃ first rest, text = first ++ rest ∧
      a.Matches before first (rest ++ after) ∧ b.Matches (before ++ first) rest after
  | alt a b, before, text, after => a.Matches before text after ∨ b.Matches before text after
  | repeated body least most, before, text, after =>
    ∃ n, least ≤ n ∧ n ≤ most ∧ Iterated body.Matches n before text after

/-- The texts that an expression stands for wherever they are. -/
def Denotes : Regex α → List α → Prop
  | set intervals, text => ∃ c, text = [c] ∧ InSet intervals c
  | start, text => text = []
  | stop, text => text = []
  | seq a b, text => ∃ first rest, text = first ++ rest ∧ a.Denotes first ∧ b.Denotes rest
  | alt a b, text => a.Denotes text ∨ b.Denotes text
  | repeated body least most, text => ∃ pieces : List (List α), least ≤ pieces.length ∧
      pieces.length ≤ most ∧ pieces.flatten = text ∧ ∀ piece ∈ pieces, body.Denotes piece

/-- An expression without anchors. -/
def free : Regex α → Bool
  | set _ => true
  | start => false
  | stop => false
  | seq a b => a.free && b.free
  | alt a b => a.free && b.free
  | repeated body _ _ => body.free

/-- There is a match somewhere in the line. -/
def Found (r : Regex α) (line : List α) : Prop :=
  ∃ before text after, line = before ++ text ++ after ∧ r.Matches before text after

end Regex

open Regex

variable {r a b body : Regex α} {text before after line : List α} {intervals : List (α × α)}
  {least most : Nat}

theorem matches_free (hfree : r.free = true) :
    r.Matches before text after ↔ r.Denotes text := by
  induction r generalizing before text after with
  | set intervals => exact Iff.rfl
  | start => cases hfree
  | stop => cases hfree
  | seq a b iha ihb =>
    obtain ⟨ha, hb⟩ := Bool.and_eq_true_iff.mp hfree
    simp only [Matches, Denotes, iha ha, ihb hb]
  | alt a b iha ihb =>
    obtain ⟨ha, hb⟩ := Bool.and_eq_true_iff.mp hfree
    simp only [Matches, Denotes, iha ha, ihb hb]
  | repeated body least most ih =>
    have hbody : ∀ before text after, body.Matches before text after ↔ body.Denotes text :=
      fun _ _ _ => ih hfree
    constructor
    · rintro ⟨n, hleast, hmost, hiterated⟩
      obtain ⟨pieces, rfl, hpieces⟩ := (iterated_iff hbody).mp hiterated
      exact ⟨pieces, hleast, hmost, hpieces⟩
    · rintro ⟨pieces, hleast, hmost, hpieces⟩
      exact ⟨pieces.length, hleast, hmost, (iterated_iff hbody).mpr ⟨pieces, rfl, hpieces⟩⟩

theorem matches_stop {parts : List (Regex α)} (hfree : ∀ r ∈ parts, r.free = true) :
    (parts.foldr seq stop).Matches before text after ↔
      after = [] ∧ (parts.foldr seq stop).Denotes text := by
  induction parts generalizing before text with
  | nil => exact and_comm
  | cons r parts ih =>
    obtain ⟨hr, hparts⟩ := List.forall_mem_cons.mp hfree
    simp only [List.foldr_cons, Matches, Denotes, matches_free hr, ih hparts]
    constructor
    · rintro ⟨first, rest, htext, hfirst, hafter, hrest⟩
      exact ⟨hafter, first, rest, htext, hfirst, hrest⟩
    · rintro ⟨hafter, first, rest, htext, hfirst, hrest⟩
      exact ⟨first, rest, htext, hfirst, hafter, hrest⟩

/-- Between both anchors only the whole line can match. -/
theorem found_anchored {parts : List (Regex α)} (hfree : ∀ r ∈ parts, r.free = true) :
    (seq start (parts.foldr seq stop)).Found line ↔ (parts.foldr seq stop).Denotes line := by
  constructor
  · rintro ⟨before, text, after, rfl, first, rest, rfl, ⟨rfl, rfl⟩, hrest⟩
    obtain ⟨rfl, hdenotes⟩ := (matches_stop hfree).mp hrest
    rw [List.append_nil]
    exact hdenotes
  · intro hdenotes
    exact ⟨[], line, [], (List.append_nil _).symm, [], line, rfl, ⟨rfl, rfl⟩,
      (matches_stop hfree).mpr ⟨rfl, hdenotes⟩⟩

/-! What an expression stands for -/

theorem denotes_seq {first rest : List α} (ha : a.Denotes first) (hb : b.Denotes rest) :
    (seq a b).Denotes (first ++ rest) := ⟨first, rest, rfl, ha, hb⟩

theorem denotes_left (h : a.Denotes text) : (alt a b).Denotes text := .inl h

theorem denotes_right (h : b.Denotes text) : (alt a b).Denotes text := .inr h

theorem denotes_flatMap {β : Type} {items : List β} {write : β → List α}
    (hleast : least ≤ items.length) (hmost : items.length ≤ most)
    (h : ∀ item ∈ items, body.Denotes (write item)) :
    (repeated body least most).Denotes (items.flatMap write) := by
  refine ⟨items.map write, by simpa using hleast, by simpa using hmost, rfl, ?_⟩
  exact List.forall_mem_map.mpr h

theorem denotes_repeated_set :
    (repeated (set intervals) least most).Denotes text ↔
      least ≤ text.length ∧ text.length ≤ most ∧ ∀ c ∈ text, InSet intervals c := by
  constructor
  · rintro ⟨pieces, hleast, hmost, rfl, hpieces⟩
    have hsingle : ∀ piece ∈ pieces, piece.length = 1 := by
      intro piece hpiece
      obtain ⟨c, rfl, -⟩ := hpieces piece hpiece
      rfl
    have hlength : pieces.flatten.length = pieces.length := by
      rw [List.length_flatten, List.map_congr_left hsingle]
      simp
    refine ⟨by omega, by omega, fun c hc => ?_⟩
    obtain ⟨piece, hpiece, hmem⟩ := List.mem_flatten.mp hc
    obtain ⟨d, rfl, hd⟩ := hpieces piece hpiece
    rw [List.mem_singleton.mp hmem]
    exact hd
  · rintro ⟨hleast, hmost, h⟩
    have hflat : text.flatMap (fun c => [c]) = text := List.flatMap_singleton' text
    rw [← hflat]
    exact denotes_flatMap hleast hmost fun c hc => ⟨c, rfl, h c hc⟩

/-- All intervals in an expression. -/
def Regex.alphabet : Regex α → List (α × α)
  | set intervals => intervals
  | start => []
  | stop => []
  | seq a b => a.alphabet ++ b.alphabet
  | alt a b => a.alphabet ++ b.alphabet
  | repeated body _ _ => body.alphabet

/-- No interval of an expression holds the symbol. -/
def Regex.Avoids (r : Regex α) (c : α) : Prop := ∀ i ∈ r.alphabet, ¬ (i.1 ≤ c ∧ c ≤ i.2)

instance [DecidableLE α] (r : Regex α) : DecidablePred r.Avoids := fun c =>
  List.decidableBAll (fun i : α × α => ¬ (i.1 ≤ c ∧ c ≤ i.2)) r.alphabet

theorem inSet_append {left right : List (α × α)} {c : α} (h : InSet left c ∨ InSet right c) :
    InSet (left ++ right) c := by
  rcases h with ⟨i, hi, hc⟩ | ⟨i, hi, hc⟩
  · exact ⟨i, List.mem_append_left _ hi, hc⟩
  · exact ⟨i, List.mem_append_right _ hi, hc⟩

theorem denotes_mem (h : r.Denotes text) : ∀ c ∈ text, InSet r.alphabet c := by
  induction r generalizing text with
  | set intervals =>
    obtain ⟨c, rfl, hc⟩ := h
    exact List.forall_mem_singleton.mpr hc
  | start =>
    cases h
    exact fun _ hc => nomatch hc
  | stop =>
    cases h
    exact fun _ hc => nomatch hc
  | seq a b iha ihb =>
    obtain ⟨first, rest, rfl, ha, hb⟩ := h
    intro c hc
    exact inSet_append ((List.mem_append.mp hc).imp (iha ha c) (ihb hb c))
  | alt a b iha ihb => exact fun c hc => inSet_append (h.imp (iha · c hc) (ihb · c hc))
  | repeated body least most ih =>
    obtain ⟨pieces, -, -, rfl, hpieces⟩ := h
    intro c hc
    obtain ⟨piece, hpiece, hmem⟩ := List.mem_flatten.mp hc
    exact ih (hpieces piece hpiece) c hmem

theorem Regex.Avoids.not_mem {c : α} (hc : r.Avoids c) (h : r.Denotes text) : c ∉ text :=
  fun hmem =>
    let ⟨i, hi, hbounds⟩ := denotes_mem h c hmem
    hc i hi hbounds

end Order

open Regex

/-! Deciding it -/

def splits (text : List α) : List (List α × List α) :=
  (List.range (text.length + 1)).map fun n => (text.take n, text.drop n)

theorem mem_splits {text first rest : List α} :
    (first, rest) ∈ splits text ↔ text = first ++ rest := by
  constructor
  · intro h
    obtain ⟨n, -, heq⟩ := List.mem_map.mp h
    cases heq
    exact (List.take_append_drop n text).symm
  · rintro rfl
    refine List.mem_map.mpr ⟨first.length, ?_, ?_⟩
    · rw [List.mem_range, List.length_append]
      omega
    · rw [List.take_left, List.drop_left]

/-- Between `least` and `most` pieces, taken off from the front. -/
def repeats (ok : List α → Bool) : Nat → Nat → List α → Bool
  | 0, least, text => least = 0 && text.isEmpty
  | most + 1, least, text => (least = 0 && text.isEmpty) ||
      (splits text).any fun (first, rest) => ok first && repeats ok most (least - 1) rest

theorem repeats_iff {ok : List α → Bool} {most least : Nat} {text : List α} :
    repeats ok most least text = true ↔ ∃ pieces : List (List α), least ≤ pieces.length ∧
      pieces.length ≤ most ∧ pieces.flatten = text ∧ ∀ piece ∈ pieces, ok piece = true := by
  have hnone : ∀ {least : Nat} {text : List α}, (least = 0 && text.isEmpty) = true →
      ∃ pieces : List (List α), least ≤ pieces.length ∧ pieces.length = 0 ∧
        pieces.flatten = text ∧ ∀ piece ∈ pieces, ok piece = true := by
    intro least text h
    obtain ⟨hleast, htext⟩ := Bool.and_eq_true_iff.mp h
    have hempty : text = [] := List.isEmpty_iff.mp htext
    exact ⟨[], Nat.le_of_eq (of_decide_eq_true hleast), rfl, hempty.symm,
      fun _ hpiece => nomatch hpiece⟩
  induction most generalizing least text with
  | zero =>
    constructor
    · intro h
      obtain ⟨pieces, hleast, hlength, hpieces⟩ := hnone h
      exact ⟨pieces, hleast, Nat.le_of_eq hlength, hpieces⟩
    · rintro ⟨pieces, hleast, hmost, rfl, -⟩
      obtain rfl := List.length_eq_zero_iff.mp (Nat.le_zero.mp hmost)
      simpa [repeats] using hleast
  | succ most ih =>
    rw [repeats, Bool.or_eq_true, List.any_eq_true]
    constructor
    · rintro (h | ⟨⟨first, rest⟩, hsplit, h⟩)
      · obtain ⟨pieces, hleast, hlength, hpieces⟩ := hnone h
        exact ⟨pieces, hleast, by omega, hpieces⟩
      · obtain ⟨hfirst, hrest⟩ := Bool.and_eq_true_iff.mp h
        obtain ⟨pieces, hleast, hmost, rfl, hpieces⟩ := ih.mp hrest
        rw [mem_splits.mp hsplit]
        refine ⟨first :: pieces, ?_, ?_, rfl, List.forall_mem_cons.mpr ⟨hfirst, hpieces⟩⟩
        · rw [List.length_cons]
          omega
        · exact Nat.succ_le_succ hmost
    · rintro ⟨pieces, hleast, hmost, rfl, hpieces⟩
      cases pieces with
      | nil => exact .inl (by simpa using hleast)
      | cons first pieces =>
        obtain ⟨hfirst, hpieces⟩ := List.forall_mem_cons.mp hpieces
        rw [List.length_cons] at hleast hmost
        have hrest : repeats ok most (least - 1) pieces.flatten = true :=
          ih.mpr ⟨pieces, by omega, by omega, rfl, hpieces⟩
        exact .inr ⟨(first, pieces.flatten), mem_splits.mpr rfl,
          Bool.and_eq_true_iff.mpr ⟨hfirst, hrest⟩⟩

section Decide
variable [LE α] [DecidableLE α]

def Regex.accepts : Regex α → List α → Bool
  | set intervals, text =>
    match text with
    | [c] => intervals.any fun i => i.1 ≤ c && c ≤ i.2
    | _ => false
  | start, text => text.isEmpty
  | stop, text => text.isEmpty
  | seq a b, text => (splits text).any fun (first, rest) => a.accepts first && b.accepts rest
  | alt a b, text => a.accepts text || b.accepts text
  | repeated body least most, text => repeats body.accepts most least text

theorem accepts_iff {r : Regex α} {text : List α} : r.accepts text = true ↔ r.Denotes text := by
  induction r generalizing text with
  | set intervals =>
    rcases text with _ | ⟨c, _ | ⟨d, rest⟩⟩
    · simp [Regex.accepts, Denotes]
    · simp [Regex.accepts, Denotes, InSet]
    · simp [Regex.accepts, Denotes]
  | start => simp [Regex.accepts, Denotes]
  | stop => simp [Regex.accepts, Denotes]
  | seq a b iha ihb =>
    rw [Regex.accepts, List.any_eq_true]
    constructor
    · rintro ⟨⟨first, rest⟩, hsplit, h⟩
      obtain ⟨ha, hb⟩ := Bool.and_eq_true_iff.mp h
      exact ⟨first, rest, mem_splits.mp hsplit, iha.mp ha, ihb.mp hb⟩
    · rintro ⟨first, rest, htext, ha, hb⟩
      exact ⟨(first, rest), mem_splits.mpr htext,
        Bool.and_eq_true_iff.mpr ⟨iha.mpr ha, ihb.mpr hb⟩⟩
  | alt a b iha ihb => rw [Regex.accepts, Bool.or_eq_true, iha, ihb, Denotes]
  | repeated body least most ih =>
    rw [Regex.accepts, repeats_iff]
    simp only [ih, Denotes]

instance (r : Regex α) (text : List α) : Decidable (r.Denotes text) :=
  decidable_of_iff _ accepts_iff

end Decide

/-! Reading expressions. Unbounded repetition and the dot are not read. -/

/-- The alternatives in front of a bar and the pieces behind it, the latest first. -/
structure Frame where
  alternatives : List (Regex UInt8)
  pieces : List (Regex UInt8)

/-- Inside brackets or braces with what stood there so far, or behind a backslash. -/
inductive Mode
  | plain
  | escape
  | bracket (members : List UInt8)
  | bound (text : List UInt8)
  deriving DecidableEq

structure Reader where
  outer : List Frame
  frame : Frame
  mode : Mode

def joinRight (op : Regex UInt8 → Regex UInt8 → Regex UInt8) :
    List (Regex UInt8) → Option (Regex UInt8)
  | [] => none
  | r :: rs =>
    match joinRight op rs with
    | none => some r
    | some rest => some (op r rest)

namespace Frame

def push (frame : Frame) (r : Regex UInt8) : Frame := { frame with pieces := r :: frame.pieces }

def bar (frame : Frame) : Option Frame :=
  (joinRight seq frame.pieces.reverse).map fun branch => ⟨branch :: frame.alternatives, []⟩

def close (frame : Frame) : Option (Regex UInt8) :=
  frame.bar.bind fun frame => joinRight alt frame.alternatives.reverse

/-- A bound applies to the piece in front of it. -/
def repeatLast (frame : Frame) (least most : Nat) : Option Frame :=
  match frame.pieces with
  | [] => none
  | r :: pieces => some { frame with pieces := repeated r least most :: pieces }

end Frame

/-- A dash between two members is an interval. -/
def readMembers : List UInt8 → List (UInt8 × UInt8)
  | [] => []
  | a :: 45 :: b :: rest => (a, b) :: readMembers rest
  | a :: rest => (a, a) :: readMembers rest

def readNumber (text : List UInt8) : Option Nat :=
  if text ≠ [] ∧ text.all fun c => 48 ≤ c && c ≤ 57 then
    some (text.foldl (fun n c => 10 * n + (c.toNat - 48)) 0)
  else none

/-- The text `m` or `m,n` between braces. -/
def readBound (text : List UInt8) : Option (Nat × Nat) :=
  match text.span (· ≠ 44) with
  | (least, []) => (readNumber least).map fun n => (n, n)
  | (least, _ :: most) => (readNumber least).bind fun m => (readNumber most).map (m, ·)

def literal (c : UInt8) : Regex UInt8 := .set [(c, c)]

def readPlain (reader : Reader) (c : UInt8) : Option Reader :=
  let pushed (r : Regex UInt8) : Option Reader := some { reader with frame := reader.frame.push r }
  if c = 40 then some ⟨reader.frame :: reader.outer, ⟨[], []⟩, .plain⟩
  else if c = 41 then
    match reader.outer with
    | [] => none
    | frame :: outer => reader.frame.close.map fun r => ⟨outer, frame.push r, .plain⟩
  else if c = 124 then reader.frame.bar.map fun frame => { reader with frame }
  else if c = 91 then some { reader with mode := .bracket [] }
  else if c = 123 then some { reader with mode := .bound [] }
  else if c = 63 then (reader.frame.repeatLast 0 1).map fun frame => { reader with frame }
  else if c = 92 then some { reader with mode := .escape }
  else if c = 94 then pushed .start
  else if c = 36 then pushed .stop
  else if c = 42 ∨ c = 43 ∨ c = 46 then none
  else pushed (literal c)

def readByte (reader : Reader) (c : UInt8) : Option Reader :=
  match reader.mode with
  | .plain => readPlain reader c
  | .escape => some { reader with frame := reader.frame.push (literal c), mode := .plain }
  | .bracket members =>
    -- a bracket or a caret in front is a member or a negation
    if members = [] ∧ (c = 93 ∨ c = 94) then none
    else if c = 93 then
      some { reader with frame := reader.frame.push (.set (readMembers members)), mode := .plain }
    else some { reader with mode := .bracket (members ++ [c]) }
  | .bound text =>
    if c = 125 then
      (readBound text).bind fun (least, most) =>
        (reader.frame.repeatLast least most).map fun frame => { reader with frame, mode := .plain }
    else some { reader with mode := .bound (text ++ [c]) }

def parse (text : List UInt8) : Option (Regex UInt8) :=
  (text.foldlM readByte ⟨[], ⟨[], []⟩, .plain⟩).bind fun reader =>
    if reader.mode = .plain ∧ reader.outer.isEmpty then reader.frame.close else none

end ExtendedRegex
