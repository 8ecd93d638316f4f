import Mathlib.Logic.Function.Basic
import ChaosVpn.StringMemory

/-! Runs of the string operations on some struct strings, beside the bytes that each of the
strings stands for. -/

namespace ChaosVpn.StringRuns
open CStrings Blocks Blocks.Behaviour StringMemory

variable {ι : Type} [DecidableEq ι]

inductive Operation (ι : Type)
  | concatb (i : ι) (bytes : Bytes)
  | concat (i : ι) (text : Bytes)
  | putc (i : ι) (c : UInt8)
  | putint (i : ι) (n : Int32)
  | clear (i : ι)
  | free (i : ι)
  | move (source target : ι)

/-- An operation on one of the strings; the others stay. -/
def onString (strings : ι → StructString) (i : ι) (b : Behaviour (Bool × StructString)) :
    Behaviour (Bool × (ι → StructString)) := do
  let (ok, st) ← b
  return (ok, Function.update strings i st)

def perform (memory : Memory) (strings : ι → StructString) :
    Operation ι → Behaviour (Bool × (ι → StructString))
  | .concatb i bytes =>
    onString strings i (stringConcatb memory (strings i) bytes bytes.length)
  | .concat i text => onString strings i (stringConcat memory (strings i) text)
  | .putc i c => onString strings i (stringPutc memory (strings i) c)
  | .putint i n => onString strings i (stringPutint memory (strings i) n)
  | .clear i => returns (true, Function.update strings i (stringClear (strings i)))
  | .free i => do
    let st ← stringFree (strings i)
    return (true, Function.update strings i st)
  | .move source target =>
    let (old, new) := stringMove (strings source)
    returns (true, Function.update (Function.update strings target new) source old)

/-- What an operation means for the bytes. -/
def effect (contents : ι → Bytes) : Operation ι → ι → Bytes
  | .concatb i bytes => Function.update contents i (contents i ++ bytes)
  | .concat i text => Function.update contents i (contents i ++ text)
  | .putc i c => Function.update contents i (contents i ++ [c])
  | .putint i n => Function.update contents i (contents i ++ decimalInt n.toInt)
  | .clear i => Function.update contents i []
  | .free i => Function.update contents i []
  | .move source target =>
    Function.update (Function.update contents target (contents source)) source []

/-- The string that is written to, and how many bytes are, uncounted ones included. -/
def demand : Operation ι → Option (ι × Nat)
  | .concatb i bytes => some (i, bytes.length)
  | .concat i text => some (i, text.length + 1)
  | .putc i _ => some (i, 1)
  | .putint i n => some (i, (decimalInt n.toInt).length)
  | .clear _ => none
  | .free _ => none
  | .move _ _ => none

def isPutc : Operation ι → Bool
  | .putc _ _ => true
  | _ => false

/-- No sum of sizes overflows, only string_putc may find no memory, and a string is moved to
another one. -/
structure Admissible (memory : Memory) (strings : ι → StructString) (op : Operation ι) : Prop where
  room : ∀ i len, demand op = some (i, len) → Room (strings i) len
  memory : isPutc op = false → ∀ n, memory n ≠ none
  apart : ∀ source target, op = .move source target → source ≠ target

inductive Made : StructString → Prop
  | init (memory : Memory) (size growby : UInt64) (st : StructString) :
    0 < growby → stringInit memory size.toNat growby.toNat = returns st → Made st
  | lazyinit (growby : UInt64) : 0 < growby → Made (stringLazyinit growby.toNat)

/-- The strings after some operations, and the bytes that the successful ones have put in. -/
inductive Reached (start : ι → StructString) : (ι → StructString) → (ι → Bytes) → Prop
  | start : Reached start start fun _ => []
  | step {strings strings' : ι → StructString} {contents : ι → Bytes} {memory : Memory}
    {op : Operation ι} {ok : Bool} : Reached start strings contents →
      Admissible memory strings op → perform memory strings op = returns (ok, strings') →
        Reached start strings' (if ok then effect contents op else contents)

/-! The invariant -/

def Represents (strings : ι → StructString) (contents : ι → Bytes) : Prop :=
  ∀ i, Valid (strings i) ∧ 0 < (strings i).growby ∧ content (strings i) = contents i

variable {memory : Memory} {strings strings' : ι → StructString} {contents : ι → Bytes} {i : ι}
  {st : StructString} {bytes : Bytes} {len : Nat}

theorem Represents.update (h : Represents strings contents) (hvalid : Valid st)
    (hgrow : 0 < st.growby) (hcontent : content st = bytes) :
    Represents (Function.update strings i st) (Function.update contents i bytes) := by
  intro j
  by_cases hj : j = i
  · subst hj
    rw [Function.update_self, Function.update_self]
    exact ⟨hvalid, hgrow, hcontent⟩
  · rw [Function.update_of_ne hj, Function.update_of_ne hj]
    exact h j

theorem Represents.appended (h : Represents strings contents)
    (happended : Appended (strings i) st bytes) :
    Represents (Function.update strings i st)
      (Function.update contents i (contents i ++ bytes)) := by
  obtain ⟨-, hgrow, hcontent⟩ := h i
  refine h.update happended.valid ?_ ?_
  · rw [happended.growby]
    exact hgrow
  · rw [happended.content, hcontent]

theorem stringFree_spec (h : Valid st) (hgrow : 0 < st.growby) :
    ∃ st', stringFree st = returns st' ∧ Valid st' ∧ st'.growby = st.growby ∧ content st' = [] := by
  cases hs : st.s with
  | null =>
    refine ⟨st, by rw [stringFree, hs], h, rfl, ?_⟩
    rw [content, hs]
    exact List.take_nil
  | heap cells => exact ⟨_, by rw [stringFree, hs], valid_empty h.growby_lt, rfl, rfl⟩
  | static cells => exact absurd hs (h.not_static hgrow cells)

theorem made_spec (h : Made st) : Valid st ∧ 0 < st.growby ∧ content st = [] := by
  cases h with
  | init memory size growby st hgrow hinit =>
    obtain ⟨hvalid, hsame, hcontent⟩ := stringInit_spec growby.toNat_lt size.toNat_lt hinit
    exact ⟨hvalid, hsame ▸ UInt64.lt_iff_toNat_lt.mp hgrow, hcontent⟩
  | lazyinit growby hgrow =>
    exact ⟨valid_empty growby.toNat_lt, UInt64.lt_iff_toNat_lt.mp hgrow, rfl⟩

/-! One operation -/

/-- What the operation leaves when it fails, what string_concat puts behind the text, and how
far the buffer has grown. -/
structure Performs (memory : Memory) (strings : ι → StructString) (contents : ι → Bytes)
    (op : Operation ι) (ok : Bool) (strings' : ι → StructString) : Prop where
  performs : perform memory strings op = returns (ok, strings')
  represents : Represents strings' (if ok then effect contents op else contents)
  failed : ok = false → ∀ i, content (strings' i) = content (strings i) ∧
    (strings' i).length = (strings i).length
  terminated : ∀ i text, op = .concat i text → ok = true → Terminated (strings' i)
  fewest : ∀ i len, demand op = some (i, len) → ok = true → ∃ k,
    FewestSteps (strings i) len k ∧
      (strings' i).size = (strings i).size + k * (strings i).growby

variable {op : Operation ι}

/-- A successful operation that puts bytes into one of the strings. -/
theorem Performs.writes (hdemand : demand op = some (i, len))
    (hperform : perform memory strings op = returns (true, Function.update strings i st))
    (hrepresents : Represents (Function.update strings i st) (effect contents op))
    (hsize : ∃ k, FewestSteps (strings i) len k ∧
      st.size = (strings i).size + k * (strings i).growby)
    (hterminated : ∀ text, op = .concat i text → Terminated st) :
    Performs memory strings contents op true (Function.update strings i st) where
  performs := hperform
  represents := hrepresents
  failed := fun hok => nomatch hok
  terminated := by
    intro j text hop _
    subst hop
    cases hdemand
    rw [Function.update_self]
    exact hterminated text rfl
  fewest := by
    intro j n hj _
    rw [hdemand] at hj
    cases hj
    rw [Function.update_self]
    exact hsize

theorem concatb_performs (h : Represents strings contents)
    (hadmissible : Admissible memory strings (.concatb i bytes)) :
    ∃ ok strings', Performs memory strings contents (.concatb i bytes) ok strings' := by
  obtain ⟨hvalid, hgrow, -⟩ := h i
  obtain ⟨st, hreturns, happended⟩ := stringConcatb_appended hvalid hgrow
    (hadmissible.room i _ rfl) (Nat.le_refl bytes.length) fun k _ => hadmissible.memory rfl _
  rw [List.take_length] at happended
  refine ⟨true, _, .writes rfl ?_ (h.appended happended) happended.fewest fun _ hop => nomatch hop⟩
  rw [perform, hreturns]
  rfl

theorem putint_performs (h : Represents strings contents) {n : Int32}
    (hadmissible : Admissible memory strings (.putint i n)) :
    ∃ ok strings', Performs memory strings contents (.putint i n) ok strings' := by
  obtain ⟨hvalid, hgrow, -⟩ := h i
  obtain ⟨st, hreturns, happended⟩ := stringConcatb_appended hvalid hgrow
    (hadmissible.room i _ rfl) (Nat.le_refl (decimalInt n.toInt).length)
    fun k _ => hadmissible.memory rfl _
  rw [List.take_length] at happended
  refine ⟨true, _, .writes rfl ?_ (h.appended happended) happended.fewest fun _ hop => nomatch hop⟩
  rw [perform, stringPutint_eq, hreturns]
  rfl

theorem concat_performs (h : Represents strings contents) {text : Bytes}
    (hadmissible : Admissible memory strings (.concat i text)) :
    ∃ ok strings', Performs memory strings contents (.concat i text) ok strings' := by
  obtain ⟨hvalid, hgrow, hcontent⟩ := h i
  obtain ⟨st, hreturns, happended⟩ := stringConcat_appended hvalid hgrow
    (hadmissible.room i _ rfl) fun k _ => hadmissible.memory rfl _
  have hlonger : content st = (content (strings i) ++ text) ++ [0] := by
    rw [happended.content, List.append_assoc]
  obtain ⟨hvalid', hcontent', hterminated, -⟩ := shortened_spec happended.valid hlonger
  have hfewest := happended.fewest
  rw [List.length_append, List.length_singleton] at hfewest
  have hgrow' : 0 < (shortened st).growby := by
    change 0 < st.growby
    rw [happended.growby]
    exact hgrow
  refine ⟨true, _, .writes rfl ?_ (h.update hvalid' hgrow' ?_) hfewest fun _ _ => hterminated⟩
  · rw [perform, hreturns]
    rfl
  · rw [hcontent', hcontent]

theorem putc_performs (h : Represents strings contents) {c : UInt8}
    (hadmissible : Admissible memory strings (.putc i c)) :
    ∃ ok strings', Performs memory strings contents (.putc i c) ok strings' := by
  obtain ⟨hvalid, hgrow, -⟩ := h i
  have hroom := hadmissible.room i 1 rfl
  by_cases hrefused : (strings i).size = (strings i).length ∧
      memory ((strings i).size + (strings i).growby) = none
  · obtain ⟨hfull, hnone⟩ := hrefused
    have hfits : (strings i).size + (strings i).growby < 2 ^ 64 := by
      obtain ⟨n, henough, hlt⟩ := hroom
      have hn : 0 < n := Nat.pos_of_ne_zero (by rintro rfl; omega)
      have hone : 1 * (strings i).growby ≤ n * (strings i).growby := Nat.mul_le_mul_right _ hn
      omega
    have hreturns : perform memory strings (.putc i c) = returns (false, strings) := by
      rw [perform, stringPutc_refused (hvalid.not_static hgrow) hgrow hfits hfull hnone]
      simp [onString]
    exact ⟨false, strings, hreturns, h, fun _ _ => ⟨rfl, rfl⟩, (fun _ _ hop => nomatch hop),
      (fun _ _ _ hok => nomatch hok)⟩
  · obtain ⟨st, hreturns, happended⟩ := stringPutc_appended (c := c) hvalid hgrow hroom
      fun hfull hnone => hrefused ⟨hfull, hnone⟩
    refine ⟨true, _, .writes rfl ?_ (h.appended happended) happended.fewest
      fun _ hop => nomatch hop⟩
    rw [perform, hreturns]
    rfl

/-- An operation that writes nothing and does not fail. -/
theorem Performs.moves (hdemand : demand op = none)
    (hperform : perform memory strings op = returns (true, strings'))
    (hrepresents : Represents strings' (effect contents op)) :
    Performs memory strings contents op true strings' where
  performs := hperform
  represents := hrepresents
  failed := fun hok => nomatch hok
  terminated := by
    rintro j text rfl
    cases hdemand
  fewest := by
    intro j n hj
    rw [hdemand] at hj
    cases hj

theorem clear_performs (h : Represents strings contents) :
    ∃ ok strings', Performs memory strings contents (.clear i) ok strings' := by
  obtain ⟨hvalid, hgrow, -⟩ := h i
  have hcleared : Valid (stringClear (strings i)) :=
    ⟨Nat.zero_le _, hvalid.cells_length, hvalid.size_lt, hvalid.growby_lt, hvalid.static_growby⟩
  exact ⟨true, _, .moves rfl rfl (h.update hcleared hgrow rfl)⟩

theorem free_performs (h : Represents strings contents) :
    ∃ ok strings', Performs memory strings contents (.free i) ok strings' := by
  obtain ⟨hvalid, hgrow, -⟩ := h i
  obtain ⟨st, hreturns, hvalid', hsame, hcontent⟩ := stringFree_spec hvalid hgrow
  refine ⟨true, _, .moves rfl ?_ (h.update hvalid' (by omega) hcontent)⟩
  rw [perform, hreturns]
  rfl

theorem move_performs (h : Represents strings contents) (source target : ι) :
    ∃ ok strings', Performs memory strings contents (.move source target) ok strings' := by
  obtain ⟨hvalid, hgrow, hcontent⟩ := h source
  have htarget := h.update (i := target) hvalid hgrow hcontent
  exact ⟨true, _, .moves rfl rfl (htarget.update (valid_empty hvalid.growby_lt) hgrow rfl)⟩

theorem performs (h : Represents strings contents) (hadmissible : Admissible memory strings op) :
    ∃ ok strings', Performs memory strings contents op ok strings' := by
  cases op with
  | concatb i bytes => exact concatb_performs h hadmissible
  | concat i text => exact concat_performs h hadmissible
  | putc i c => exact putc_performs h hadmissible
  | putint i n => exact putint_performs h hadmissible
  | clear i => exact clear_performs h
  | free i => exact free_performs h
  | move source target => exact move_performs h source target

/-! Runs -/

theorem reached_represents {start : ι → StructString} (hmade : ∀ i, Made (start i))
    (h : Reached start strings contents) : Represents strings contents := by
  induction h with
  | start => exact fun i => made_spec (hmade i)
  | step _ hadmissible hperform ih =>
    obtain ⟨ok, strings', hperforms⟩ := performs ih hadmissible
    rw [hperforms.performs] at hperform
    cases hperform
    exact hperforms.represents

/-- The strings stand for the bytes that were put in, and grow by as few steps as will do. -/
theorem refines_bytes {start : ι → StructString} (hmade : ∀ i, Made (start i))
    (h : Reached start strings contents) :
    (∀ i, (strings i).length ≤ (strings i).size ∧ (strings i).length = (contents i).length ∧
      (strings i).s.cells.take (strings i).length = contents i) ∧
    (∀ memory op, Admissible memory strings op →
      ∃ ok strings', Performs memory strings contents op ok strings') ∧
    ∀ i len, Room (strings i) len → (strings i).size < (strings i).length + len →
      ∃ k, FewestSteps (strings i) len k ∧
        growLoop (strings i) len = returns (some (k * (strings i).growby)) := by
  have hrepresents := reached_represents hmade h
  refine ⟨fun i => ?_, fun memory op hadmissible => performs hrepresents hadmissible,
    fun i len hroom hfull => ?_⟩
  · obtain ⟨hvalid, -, hcontent⟩ := hrepresents i
    refine ⟨hvalid.length_le, ?_, hcontent⟩
    rw [← hcontent, hvalid.content_length]
  · obtain ⟨hvalid, hgrow, -⟩ := hrepresents i
    obtain ⟨k, hfewest, -, hloop⟩ := growLoop_fewest hvalid hgrow hroom hfull
    exact ⟨k, hfewest, hloop⟩

/-- Memory that is always there, cleared. -/
def plenty : Memory := fun _ => some fun _ => 0

def oneByte : Unit → StructString :=
  Function.update (fun _ => stringLazyinit 3) () ⟨1, 3, 3, .heap [99, 0, 0]⟩

theorem refines_bytes_putc : (oneByte ()).s.cells.take (oneByte ()).length = [99] ∧
    ∃ ok strings', Performs plenty oneByte (fun _ => [99]) (.clear ()) ok strings' := by
  have hadmissible : Admissible plenty (fun _ : Unit => stringLazyinit 3) (.putc () 99) := by
    refine ⟨fun i len hdemand => ?_, (fun hop => nomatch hop), (fun _ _ hop => nomatch hop)⟩
    cases hdemand
    exact ⟨1, by decide, by decide⟩
  have hstep : perform plenty (fun _ : Unit => stringLazyinit 3) (.putc () 99) =
      returns (true, oneByte) := rfl
  have hreached : Reached (fun _ : Unit => stringLazyinit 3) oneByte fun _ => [99] :=
    .step .start hadmissible hstep
  have hspec := refines_bytes (fun _ => .lazyinit 3 (by decide)) hreached
  refine ⟨(hspec.1 ()).2.2, hspec.2.1 plenty (.clear ()) ⟨?_, ?_, ?_⟩⟩
  · exact fun _ _ hdemand => nomatch hdemand
  · exact fun _ _ => Option.some_ne_none _
  · exact fun _ _ hop => nomatch hop

end ChaosVpn.StringRuns
