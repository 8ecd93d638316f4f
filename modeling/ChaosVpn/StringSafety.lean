import ChaosVpn.StringSprintf

/-! Which operations on a struct string stay inside its buffer and come to an end, in any state
that operations on strings of any origin lead to. -/

namespace ChaosVpn.StringSafety
open CStrings Blocks Blocks.Behaviour StringMemory StringSprintf

variable {δ : Type}

/-- The operations that may be called on a string before; string_move leaves it empty, or is
seen as a change of its name. -/
inductive Operation (δ : Type)
  | concatb (sta : Bytes) (len : Nat)
  | concats (ss : StructString)
  | concat (text : Bytes)
  | putc (c : UInt8)
  | putint (i : Int32)
  | sprintf (vsnprintf : Vsnprintf δ) (msg : Bytes) (args : List (Argument δ))
  | ensurez
  | read (len : Nat) (received : Option Bytes)
  | clear
  | free
  | moved

def perform (memory : Memory) (st : StructString) : Operation δ → Behaviour (Bool × StructString)
  | .concatb sta len => stringConcatb memory st sta len
  | .concats ss => stringConcats memory st ss
  | .concat text => stringConcat memory st text
  | .putc c => stringPutc memory st c
  | .putint i => stringPutint memory st i
  | .sprintf vsnprintf msg args => stringConcatSprintf memory vsnprintf st msg args
  | .ensurez => stringEnsurez memory st
  | .read len received => stringRead memory st len received
  | .clear => returns (true, stringClear st)
  | .free => do
    let st ← stringFree st
    return (true, st)
  | .moved => returns (true, (stringMove st).1)

/-- The strings there can be. Texts are no longer than memory. -/
inductive Reachable (δ : Type) : StructString → Prop
  | init (memory : Memory) (size growby : UInt64) (st : StructString) :
    stringInit memory size.toNat growby.toNat = returns st → Reachable δ st
  | lazyinit (growby : UInt64) : Reachable δ (stringLazyinit growby.toNat)
  | initfromstringz (memory : Memory) (text : Bytes) (ok : Bool) (st : StructString) :
    text.length < 2 ^ 64 → stringInitfromstringz memory text = returns (ok, st) → Reachable δ st
  | mkstatic (z : Bytes) : z.length < 2 ^ 64 → Reachable δ (stringMkstatic z)
  | step (memory : Memory) (op : Operation δ) (ok : Bool) (st st' : StructString) :
    Reachable δ st → perform memory st op = returns (ok, st') → Reachable δ st'

/-! What returns leaves the string in order -/

variable {memory : Memory} {st st' : StructString} {sta bytes : Bytes} {len : Nat} {ok : Bool}
  {c : UInt8}

theorem realloc_length {p buf : Pointer} {n : Nat} (h : realloc memory p n = returns buf) :
    buf = .null ∨ ∃ cells, buf = .heap cells ∧ cells.length = n := by
  cases p with
  | null =>
    cases h
    unfold malloc
    split
    · exact .inl rfl
    · exact .inr ⟨_, rfl, by simp⟩
  | static cells => cases h
  | heap cells =>
    simp only [realloc] at h
    split at h
    · cases h
    · split at h
      · cases h
        exact .inl rfl
      · cases h
        refine .inr ⟨_, rfl, ?_⟩
        simp only [List.length_append, List.length_take, List.length_map, List.length_drop,
          List.length_range]
        omega

/-- A block that could be cleared is as large as the string says it is. -/
theorem enlarged_keeps (h : Valid st) {cells : Bytes} {buf' : Pointer} {growby : Nat}
    (hlength : cells.length = sizeT (st.size + growby))
    (hclear : (Pointer.heap cells).store st.size (List.replicate growby 0) = returns buf') :
    Valid { st with size := sizeT (st.size + growby), s := buf' } := by
  have hold := h.length_le
  have hlt := h.size_lt
  obtain ⟨cells', hwritten, heq⟩ := bind_eq_returns.mp hclear
  cases heq
  obtain ⟨hsame, hroom⟩ := overwrite_returns hwritten
  have hcells : cells'.length = sizeT (st.size + growby) := hsame.trans hlength
  have hsum : sizeT (st.size + growby) < 2 ^ 64 := Nat.mod_lt _ (Nat.two_pow_pos 64)
  refine ⟨?_, hcells, hsum, h.growby_lt, fun _ hstatic => nomatch hstatic⟩
  change st.length ≤ sizeT (st.size + growby)
  rcases hroom with hnone | hroom
  · have hzero : growby = 0 := by simpa using congrArg List.length hnone
    rw [hzero, Nat.add_zero, sizeT_of_lt hlt]
    exact hold
  · rw [List.length_replicate, Pointer.cells_heap, hlength] at hroom
    omega

/-- What a string may be after a call that appends so many bytes or fails. -/
structure Kept (st : StructString) (len : Nat) (ok : Bool) (st' : StructString) : Prop where
  valid : Valid st'
  length : ok = true → st'.length = st.length + len

theorem copyBehind_keeps (h : Valid st) (hreturns : copyBehind st sta len = returns (ok, st')) :
    Kept st len ok st' := by
  obtain ⟨bytes, hfetch, hrest⟩ := bind_eq_returns.mp hreturns
  obtain ⟨st₁, happend, heq⟩ := bind_eq_returns.mp hrest
  cases heq
  obtain ⟨hvalid, hlength⟩ := append_keeps h happend
  exact ⟨hvalid, fun _ => by rw [hlength, (fetch_returns hfetch).1]⟩

theorem stringConcatb_keeps (h : Valid st)
    (hreturns : stringConcatb memory st sta len = returns (ok, st')) : Kept st len ok st' := by
  have hfailed : Kept st len false st := ⟨h, fun hok => nomatch hok⟩
  unfold stringConcatb at hreturns
  split at hreturns
  · split at hreturns
    · cases hreturns
      exact hfailed
    · obtain ⟨grows, -, hrest⟩ := bind_eq_returns.mp hreturns
      cases grows with
      | none =>
        cases hrest
        exact hfailed
      | some growby =>
        obtain ⟨buf, hrealloc, hrest⟩ := bind_eq_returns.mp hrest
        obtain ⟨buf', hclear, hrest⟩ := bind_eq_returns.mp hrest
        obtain ⟨cells', -, heq⟩ := bind_eq_returns.mp hclear
        rcases realloc_length hrealloc with rfl | ⟨cells, rfl, hlength⟩
        · cases heq
          cases hrest
          exact hfailed
        · have henlarged := enlarged_keeps h hlength hclear
          cases heq
          obtain ⟨hvalid, hgrown⟩ := copyBehind_keeps henlarged hrest
          exact ⟨hvalid, hgrown⟩
  · exact copyBehind_keeps h hreturns

theorem stringPutc_keeps (h : Valid st) (hreturns : stringPutc memory st c = returns (ok, st')) :
    Kept st 1 ok st' := by
  have hwrites : ∀ {st₁ : StructString}, Valid st₁ → st₁.length = st.length →
      (do
        let st₂ ← append st₁ [c]
        return (true, st₂)) = returns (ok, st') → Kept st 1 ok st' := by
    intro st₁ hvalid hsame hrest
    obtain ⟨st₂, happend, heq⟩ := bind_eq_returns.mp hrest
    cases heq
    obtain ⟨hvalid', hlength⟩ := append_keeps hvalid happend
    exact ⟨hvalid', fun _ => by rw [hlength, hsame, List.length_singleton]⟩
  unfold stringPutc at hreturns
  split at hreturns
  · obtain ⟨buf, hrealloc, hrest⟩ := bind_eq_returns.mp hreturns
    rcases realloc_length hrealloc with rfl | ⟨cells, rfl, hlength⟩
    · cases hrest
      exact ⟨h, fun hok => nomatch hok⟩
    · obtain ⟨buf', hclear, hrest⟩ := bind_eq_returns.mp hrest
      exact hwrites (enlarged_keeps h hlength hclear) rfl hrest
  · exact hwrites h rfl hreturns

theorem putTerminator_keeps (h : Valid st)
    (hreturns : putTerminator memory st = returns (ok, st')) : Valid st' := by
  obtain ⟨⟨ok', st₁⟩, hputc, hrest⟩ := bind_eq_returns.mp hreturns
  have hkept := stringPutc_keeps h hputc
  cases ok' with
  | false =>
    cases hrest
    exact hkept.valid
  | true =>
    cases hrest
    exact (shortened_keeps hkept.valid (hkept.length rfl)).1

theorem stringConcat_keeps {text : Bytes} (h : Valid st)
    (hreturns : stringConcat memory st text = returns (ok, st')) : Valid st' := by
  obtain ⟨⟨ok', st₁⟩, hconcatb, hrest⟩ := bind_eq_returns.mp hreturns
  have hkept := stringConcatb_keeps h hconcatb
  cases ok' with
  | false =>
    cases hrest
    exact hkept.valid
  | true =>
    cases hrest
    exact (shortened_keeps hkept.valid (hkept.length rfl)).1

theorem stringEnsurez_keeps (h : Valid st)
    (hreturns : stringEnsurez memory st = returns (ok, st')) : Valid st' := by
  unfold stringEnsurez at hreturns
  split at hreturns
  · exact putTerminator_keeps h hreturns
  · split at hreturns
    · cases hreturns
    · split at hreturns
      · cases hreturns
        exact h
      · exact putTerminator_keeps h hreturns

theorem readInto_keeps {received : Option Bytes} (h : Valid st)
    (hreturns : readInto st len received = returns (ok, st')) : Valid st' := by
  obtain ⟨st₁, happend, heq⟩ := bind_eq_returns.mp hreturns
  cases heq
  exact (append_keeps h happend).1

theorem stringRead_keeps {received : Option Bytes} (h : Valid st)
    (hreturns : stringRead memory st len received = returns (ok, st')) : Valid st' := by
  unfold stringRead at hreturns
  split at hreturns
  · obtain ⟨grows, -, hrest⟩ := bind_eq_returns.mp hreturns
    cases grows with
    | none =>
      cases hrest
      exact h
    | some growby =>
      obtain ⟨buf, hrealloc, hrest⟩ := bind_eq_returns.mp hrest
      rcases realloc_length hrealloc with rfl | ⟨cells, rfl, hlength⟩
      · cases hrest
        exact h
      · obtain ⟨buf', hclear, hrest⟩ := bind_eq_returns.mp hrest
        exact readInto_keeps (enlarged_keeps h hlength hclear) hrest
  · exact readInto_keeps h hreturns

theorem directive_keeps {vsnprintf : Vsnprintf δ} {cfs : Bytes} {args rest : List (Argument δ)}
    (h : Valid st)
    (hreturns : directive memory vsnprintf st cfs c args = returns ((ok, st'), rest)) :
    Valid st' := by
  unfold directive at hreturns
  split at hreturns
  · split at hreturns
    · obtain ⟨r, hconcat, heq⟩ := bind_eq_returns.mp hreturns
      cases heq
      exact stringConcat_keeps h hconcat
    · cases hreturns
  · split at hreturns
    · split at hreturns
      · obtain ⟨r, hconcats, heq⟩ := bind_eq_returns.mp hreturns
        cases heq
        exact (stringConcatb_keeps h hconcats).valid
      · cases hreturns
    · split at hreturns
      · split at hreturns
        · obtain ⟨r, hputint, heq⟩ := bind_eq_returns.mp hreturns
          cases heq
          rw [stringPutint_eq] at hputint
          exact (stringConcatb_keeps h hputint).valid
        · cases hreturns
      · obtain ⟨r, hconcatb, heq⟩ := bind_eq_returns.mp hreturns
        cases heq
        exact (stringConcatb_keeps h hconcatb).valid

theorem sprintfLoop_keeps {vsnprintf : Vsnprintf δ} {msg : Bytes} {cfs : Option Bytes}
    {args : List (Argument δ)} (h : Valid st)
    (hreturns : sprintfLoop memory vsnprintf msg cfs st args = returns (ok, st')) : Valid st' := by
  induction msg generalizing cfs st args with
  | nil => cases cfs <;> cases hreturns
  | cons c msg ih =>
    cases cfs with
    | none =>
      rw [sprintfLoop] at hreturns
      split at hreturns
      · exact putTerminator_keeps h hreturns
      · split at hreturns
        · exact ih h hreturns
        · obtain ⟨⟨ok', st₁⟩, hputc, hrest⟩ := bind_eq_returns.mp hreturns
          have hvalid := (stringPutc_keeps h hputc).valid
          cases ok' with
          | false =>
            cases hrest
            exact hvalid
          | true => exact ih hvalid hrest
    | some cfs =>
      rw [sprintfLoop] at hreturns
      split at hreturns
      · exact putTerminator_keeps h hreturns
      · split at hreturns
        · split at hreturns
          · exact ih h hreturns
          · cases hreturns
        · obtain ⟨⟨⟨ok', st₁⟩, rest⟩, hdirective, hrest⟩ := bind_eq_returns.mp hreturns
          have hvalid := directive_keeps h hdirective
          cases ok' with
          | false =>
            cases hrest
            exact hvalid
          | true => exact ih hvalid hrest

theorem perform_keeps {op : Operation δ} (h : Valid st)
    (hreturns : perform memory st op = returns (ok, st')) : Valid st' := by
  cases op with
  | concatb sta len => exact (stringConcatb_keeps h hreturns).valid
  | concats ss => exact (stringConcatb_keeps h hreturns).valid
  | concat text => exact stringConcat_keeps h hreturns
  | putc c => exact (stringPutc_keeps h hreturns).valid
  | putint i =>
    rw [perform, stringPutint_eq] at hreturns
    exact (stringConcatb_keeps h hreturns).valid
  | sprintf vsnprintf msg args => exact sprintfLoop_keeps h hreturns
  | ensurez => exact stringEnsurez_keeps h hreturns
  | read len received => exact stringRead_keeps h hreturns
  | clear =>
    cases hreturns
    exact ⟨Nat.zero_le _, h.cells_length, h.size_lt, h.growby_lt, h.static_growby⟩
  | free =>
    obtain ⟨st₁, hfree, heq⟩ := bind_eq_returns.mp hreturns
    cases heq
    unfold stringFree at hfree
    split at hfree
    · cases hfree
      exact h
    · cases hfree
      exact valid_empty h.growby_lt
    · cases hfree
  | moved =>
    cases hreturns
    exact valid_empty h.growby_lt

theorem Reachable.valid (h : Reachable δ st) : Valid st := by
  induction h with
  | init memory size growby st hinit =>
    exact (stringInit_spec growby.toNat_lt size.toNat_lt hinit).1
  | lazyinit growby => exact valid_empty growby.toNat_lt
  | initfromstringz memory text ok st hlength hinit =>
    exact (stringConcatb_keeps (valid_empty hlength) hinit).valid
  | mkstatic z hlength =>
    exact ⟨Nat.le_refl _, rfl, hlength, Nat.two_pow_pos 64, fun _ _ => rfl⟩
  | step memory op ok st st' _ hreturns ih => exact perform_keeps ih hreturns

/-! The calls that stay inside and end -/

inductive Call
  | putc (c : UInt8)
  | ensurez
  | concatb (bytes : Bytes)
  | read (len : Nat) (received : Option Bytes)

def run (memory : Memory) (st : StructString) : Call → Behaviour (Bool × StructString)
  | .putc c => stringPutc memory st c
  | .ensurez => stringEnsurez memory st
  | .concatb bytes => stringConcatb memory st bytes bytes.length
  | .read len received => stringRead memory st len received

def Safe (memory : Memory) (st : StructString) (call : Call) : Prop :=
  ∃ ok st', run memory st call = returns (ok, st')

/-- One step of `growby` more overflows neither beside the size nor beside the request. -/
def SumsFit (st : StructString) (len : Nat) : Prop :=
  st.size + st.growby < 2 ^ 64 ∧ len + st.growby ≤ 2 ^ 64

/-- The string is not full, or can grow, or realloc() refuses what it is asked for. -/
def CanPutc (memory : Memory) (st : StructString) : Prop :=
  st.size ≠ st.length ∨ (0 < st.growby ∧ st.size + st.growby < 2 ^ 64) ∨
    memory (sizeT (st.size + st.growby)) = none ∧
      (st.s = .null ∨ (∃ cells, st.s = .heap cells) ∧ 0 < sizeT (st.size + st.growby))

def Meets (memory : Memory) (st : StructString) : Call → Prop
  | .putc _ => CanPutc memory st
  | .ensurez =>
    (st.s = .null ∧ CanPutc memory st) ∨
      (st.s ≠ .null ∧ 0 < st.length ∧
        (st.s.cells[st.length - 1]? = some 0 ∨ CanPutc memory st))
  | .concatb bytes =>
    st.length + bytes.length ≤ st.size ∨ st.growby = 0 ∨
      SumsFit st bytes.length ∧
        ∀ k, FewestSteps st bytes.length k → st.size + k * st.growby < 2 ^ 64 →
          memory (st.size + k * st.growby) ≠ none
  | .read len _ => st.length + len ≤ st.size ∨ 0 < st.growby ∧ SumsFit st len

/-- The loop that grows the buffer may run into sums that a size_t does not hold. -/
def Overflows (st : StructString) : Call → Prop
  | .putc _ => False
  | .ensurez => False
  | .concatb bytes => ¬ SumsFit st bytes.length
  | .read len _ => ¬ SumsFit st len

theorem bind_returns_iff {α β : Type} {b : Behaviour α} {f : α → Behaviour β}
    (hf : ∀ a, ∃ r, f a = returns r) : (∃ r, (b >>= f) = returns r) ↔ ∃ a, b = returns a := by
  constructor
  · rintro ⟨r, hr⟩
    obtain ⟨a, hb, -⟩ := bind_eq_returns.mp hr
    exact ⟨a, hb⟩
  · rintro ⟨a, rfl⟩
    exact hf a

/-- A block of the size that is in use has no place for a byte more. -/
theorem no_place (c : UInt8) (hfull : st.size = st.length) (cells : Bytes)
    (hcells : cells.length = st.size) (r : Bool × StructString) :
    (do
      let buf ← (Pointer.heap cells).store st.size (List.replicate st.growby 0)
      let st ← append { st with size := st.size, s := buf } [c]
      return (true, st)) ≠ returns r := by
  intro hreturns
  obtain ⟨buf, hclear, hrest⟩ := bind_eq_returns.mp hreturns
  obtain ⟨st₁, happend, -⟩ := bind_eq_returns.mp hrest
  obtain ⟨buf', hstore, -⟩ := bind_eq_returns.mp happend
  obtain ⟨cells', hwritten, -⟩ := bind_eq_returns.mp hstore
  obtain ⟨cells'', hcleared, heq⟩ := bind_eq_returns.mp hclear
  cases heq
  have hsize := (overwrite_returns hcleared).1
  have hroom := (overwrite_returns hwritten).2
  simp only [Pointer.cells_heap, Pointer.withCells, List.length_singleton] at hsize hroom
  rcases hroom with hnone | hroom
  · cases hnone
  · omega

/-- A full string that cannot grow. -/
theorem safe_putc_full (h : Valid st) (hfull : st.size = st.length) (hzero : st.growby = 0) :
    (∃ r, stringPutc memory st c = returns r) ↔ CanPutc memory st := by
  have hsum : sizeT (st.size + st.growby) = st.size := by
    rw [hzero, Nat.add_zero, sizeT_of_lt h.size_lt]
  have hnot : ¬ (st.size ≠ st.length ∨ (0 < st.growby ∧ st.size + st.growby < 2 ^ 64)) := by omega
  rw [CanPutc, ← or_assoc, or_iff_right hnot, stringPutc, if_pos hfull, hsum]
  cases hs : st.s with
  | null =>
    cases hmemory : memory st.size with
    | none => simp [realloc, malloc, hmemory]
    | some fresh =>
      have hno := no_place c hfull ((List.range st.size).map fresh) (by simp)
      simp only [realloc, malloc, hmemory, returns_bind]
      refine iff_of_false ?_ (fun hrefused => Option.some_ne_none fresh hrefused.1)
      rintro ⟨r, hr⟩
      exact hno r hr
  | heap cells =>
    have hcells : cells.length = st.size := by rw [← h.cells_length, hs]; rfl
    by_cases hempty : st.size = 0
    · simp [realloc, hempty]
    · cases hmemory : memory st.size with
      | none => simp [realloc, hempty, hmemory, Nat.pos_of_ne_zero hempty]
      | some fresh =>
        have hno := no_place c hfull
          (cells.take st.size ++ ((List.range st.size).drop cells.length).map fresh)
          (by simp [hcells])
        simp only [realloc, if_neg hempty, hmemory, returns_bind]
        refine iff_of_false ?_ (fun hrefused => Option.some_ne_none fresh hrefused.1)
        rintro ⟨r, hr⟩
        exact hno r hr
  | static cells => simp [realloc]

/-- A full string whose new size a size_t does not hold: the block gets smaller, and what is to
be cleared lies behind it. -/
theorem safe_putc_wraps (h : Valid st) (hfull : st.size = st.length)
    (hwraps : 2 ^ 64 ≤ st.size + st.growby) :
    (∃ r, stringPutc memory st c = returns r) ↔ CanPutc memory st := by
  have hlt := h.size_lt
  have hstep := h.growby_lt
  have hless : sizeT (st.size + st.growby) < st.size := by
    unfold sizeT
    omega
  have hnot : ¬ (st.size ≠ st.length ∨ (0 < st.growby ∧ st.size + st.growby < 2 ^ 64)) := by omega
  rw [CanPutc, ← or_assoc, or_iff_right hnot, stringPutc, if_pos hfull]
  generalize sizeT (st.size + st.growby) = n at hless
  cases hs : st.s with
  | null =>
    have hnone : st.size = 0 := by rw [← h.cells_length, hs]; rfl
    omega
  | static cells => exact absurd (h.static_growby cells hs) (by omega)
  | heap cells =>
    by_cases hempty : n = 0
    · simp [realloc, hempty]
    · cases hmemory : memory n with
      | none => simp [realloc, hempty, hmemory, Nat.pos_of_ne_zero hempty]
      | some fresh =>
        simp only [realloc, if_neg hempty, hmemory, returns_bind]
        refine iff_of_false ?_ (fun hrefused => Option.some_ne_none fresh hrefused.1)
        rintro ⟨r, hr⟩
        obtain ⟨buf, hclear, -⟩ := bind_eq_returns.mp hr
        obtain ⟨cells', hwritten, -⟩ := bind_eq_returns.mp hclear
        have hroom := (overwrite_returns hwritten).2
        simp only [Pointer.cells_heap, List.length_append, List.length_take, List.length_map,
          List.length_drop, List.length_range, List.length_replicate,
          List.replicate_eq_nil_iff] at hroom
        omega

theorem safe_putc (h : Valid st) :
    (∃ r, stringPutc memory st c = returns r) ↔ CanPutc memory st := by
  have hold := h.length_le
  by_cases hfull : st.size = st.length
  · rcases Nat.eq_zero_or_pos st.growby with hzero | hgrow
    · exact safe_putc_full h hfull hzero
    · rcases Nat.lt_or_ge (st.size + st.growby) (2 ^ 64) with hfits | hwraps
      · refine iff_of_true ?_ (.inr (.inl ⟨hgrow, hfits⟩))
        cases hmemory : memory (st.size + st.growby) with
        | none => exact ⟨_, stringPutc_refused (h.not_static hgrow) hgrow hfits hfull hmemory⟩
        | some fresh =>
          have hroom : Room st 1 := ⟨1, by omega, by omega⟩
          have hgranted : memory (st.size + st.growby) ≠ none := by simp [hmemory]
          obtain ⟨st', hreturns, -⟩ :=
            stringPutc_appended (c := c) h hgrow hroom fun _ => hgranted
          exact ⟨_, hreturns⟩
      · exact safe_putc_wraps h hfull hwraps
  · refine iff_of_true ?_ (.inl hfull)
    obtain ⟨st', hreturns, -⟩ := append_appended h [c] (by
      simp only [List.length_singleton]
      omega)
    exact ⟨_, by rw [stringPutc, if_neg hfull, hreturns]; rfl⟩

theorem safe_putTerminator (h : Valid st) :
    (∃ r, putTerminator memory st = returns r) ↔ CanPutc memory st := by
  rw [← safe_putc (c := 0) h]
  refine bind_returns_iff fun r => ?_
  obtain ⟨ok, st₁⟩ := r
  cases ok <;> exact ⟨_, rfl⟩

theorem safe_ensurez (h : Valid st) :
    (∃ r, stringEnsurez memory st = returns r) ↔ Meets memory st .ensurez := by
  have hold := h.length_le
  have hlt := h.size_lt
  have hterminator : (∃ r, putTerminator memory st = returns r) ↔ CanPutc memory st :=
    safe_putTerminator h
  rw [Meets]
  by_cases hnull : st.s = .null
  · simp only [stringEnsurez, hnull, hterminator]
    simp
  · have hoverrun (hread : st.s.cells[sizeDiff st.length 1]? = none) :
        stringEnsurez memory st = outside := by
      unfold stringEnsurez
      split
      · exact absurd ‹_› hnull
      · rw [hread]
    have hlast {c : UInt8} (hread : st.s.cells[sizeDiff st.length 1]? = some c) :
        stringEnsurez memory st = if c = 0 then returns (true, st) else putTerminator memory st := by
      unfold stringEnsurez
      split
      · exact absurd ‹_› hnull
      · rw [hread]
    rcases Nat.eq_zero_or_pos st.length with hempty | hpos
    · have hbehind : st.s.cells[sizeDiff st.length 1]? = none := by
        refine List.getElem?_eq_none ?_
        rw [h.cells_length, hempty]
        exact Nat.le_of_lt_succ hlt
      rw [hoverrun hbehind]
      simp [hnull, hempty]
    · rw [sizeDiff_of_le hpos (by omega)] at hlast
      have hinside : st.length - 1 < st.s.cells.length := by
        rw [h.cells_length]
        omega
      have hread := List.getElem?_eq_getElem hinside
      rw [hlast hread, hread]
      by_cases hzero : st.s.cells[st.length - 1] = 0
      · simp [hnull, hpos, hzero]
      · simp [hnull, hpos, hzero, hterminator]

theorem FewestSteps.unique {j k : Nat} (hj : FewestSteps st len j) (hk : FewestSteps st len k) :
    j = k := by
  rcases Nat.lt_trichotomy j k with hless | heq | hless
  · have hshort := hk.2 j hless
    have henough := hj.1
    omega
  · exact heq
  · have hshort := hj.2 k hless
    have henough := hk.1
    omega

/-- The growing loop under the bounds on the sums. -/
theorem growLoop_safe (h : Valid st) (hgrow : 0 < st.growby) (hfits : st.size + st.growby < 2 ^ 64)
    (hasked : len + st.growby ≤ 2 ^ 64) (hfull : st.size < st.length + len) :
    ∃ r, growLoop st len = returns r ∧ Settled st len r := by
  have hold := h.length_le
  refine growLoop_settles h hgrow hfits (fun j hj => ?_) hfull
  have hmore : (j + 1) * st.growby = j * st.growby + st.growby := Nat.succ_mul j st.growby
  omega

theorem clear_null {d i : Nat} (hd : 0 < d) :
    Pointer.null.store i (List.replicate d 0) = outside := by
  obtain ⟨d, rfl⟩ := Nat.exists_eq_add_of_le' hd
  simp [Pointer.store, overwrite, List.replicate_succ]

theorem concatb_in_place (memory : Memory) (h : Valid st)
    (hplace : st.length + bytes.length ≤ st.size) :
    ∃ st', stringConcatb memory st bytes bytes.length = returns (true, st') ∧
      Appended st st' bytes := by
  obtain ⟨st', happend, happended, -⟩ := append_appended h bytes hplace
  refine ⟨st', ?_, happended⟩
  rw [stringConcatb, if_neg (by rw [sizeDiff_of_le h.length_le h.size_lt]; omega)]
  exact copyBehind_eq (Nat.le_refl _) (by rwa [List.take_length])

theorem concatb_grows (h : Valid st) (hgrow : 0 < st.growby) (hsums : SumsFit st bytes.length)
    (hfull : st.size < st.length + bytes.length) :
    (∃ r, stringConcatb memory st bytes bytes.length = returns r) ↔
      ∀ k, FewestSteps st bytes.length k → st.size + k * st.growby < 2 ^ 64 →
        memory (st.size + k * st.growby) ≠ none := by
  have hold := h.length_le
  have hmore : bytes.length > sizeDiff st.size st.length := by
    rw [sizeDiff_of_le hold h.size_lt]
    omega
  obtain ⟨r, hloop, hsettled⟩ := growLoop_safe h hgrow hsums.1 hsums.2 hfull
  rcases hsettled with ⟨rfl, hnone⟩ | ⟨k, hfewest, hsize, rfl⟩
  · refine iff_of_true ⟨(false, st), ?_⟩ (fun k hk hlt => absurd ⟨k, hk.1, hlt⟩ hnone)
    rw [stringConcatb, if_pos hmore, if_neg (by omega), hloop]
    rfl
  · have hpos : 0 < k * st.growby := Nat.mul_pos (hfewest.pos hfull) hgrow
    cases hmemory : memory (st.size + k * st.growby) with
    | none =>
      -- the new part is cleared before the NULL pointer is noticed
      have houtside : stringConcatb memory st bytes bytes.length = outside := by
        rw [stringConcatb, if_pos hmore, if_neg (by omega), hloop]
        simp only [returns_bind, sizeT_of_lt hsize,
          realloc_refused (h.not_static hgrow) (by omega) hmemory, clear_null hpos, outside_bind]
      refine iff_of_false ?_ (fun hgranted => hgranted k hfewest hsize hmemory)
      rintro ⟨r, hr⟩
      cases houtside.symm.trans hr
    | some fresh =>
      have hgranted : ∀ j, FewestSteps st bytes.length j →
          memory (st.size + j * st.growby) ≠ none := by
        intro j hj
        rw [FewestSteps.unique hj hfewest, hmemory]
        exact Option.some_ne_none fresh
      obtain ⟨st', hreturns, -⟩ := stringConcatb_appended h hgrow ⟨k, hfewest.1, hsize⟩
        (Nat.le_refl bytes.length) hgranted
      exact iff_of_true ⟨_, hreturns⟩ (fun j hj _ => hgranted j hj)

theorem safe_concatb (h : Valid st) :
    (Meets memory st (.concatb bytes) →
      ∃ r, stringConcatb memory st bytes bytes.length = returns r) ∧
    ((∃ r, stringConcatb memory st bytes bytes.length = returns r) →
      Meets memory st (.concatb bytes) ∨ Overflows st (.concatb bytes)) := by
  by_cases hplace : st.length + bytes.length ≤ st.size
  · obtain ⟨st', hreturns, -⟩ := concatb_in_place memory h hplace
    exact ⟨fun _ => ⟨(true, st'), hreturns⟩, fun _ => .inl (.inl hplace)⟩
  rcases Nat.eq_zero_or_pos st.growby with hzero | hgrow
  · have hold := h.length_le
    have hmore : bytes.length > sizeDiff st.size st.length := by
      rw [sizeDiff_of_le hold h.size_lt]
      omega
    refine ⟨fun _ => ⟨(false, st), ?_⟩, fun _ => .inl (.inr (.inl hzero))⟩
    rw [stringConcatb, if_pos hmore, if_pos hzero]
  · constructor
    · rintro (hroom | hzero | ⟨hsums, hgranted⟩)
      · exact absurd hroom hplace
      · omega
      · exact (concatb_grows h hgrow hsums (by omega)).mpr hgranted
    · intro hreturns
      by_cases hsums : SumsFit st bytes.length
      · exact .inl (.inr (.inr ⟨hsums, (concatb_grows h hgrow hsums (by omega)).mp hreturns⟩))
      · exact .inr hsums

theorem readInto_safe {received : Option Bytes} (h : Valid st)
    (hplace : st.length + len ≤ st.size) : ∃ r, readInto st len received = returns r := by
  have htake : ((received.getD []).take len).length ≤ len := List.length_take_le _ _
  obtain ⟨st', happend, -⟩ := append_appended h ((received.getD []).take len) (by omega)
  refine ⟨(true, st'), ?_⟩
  rw [readInto, happend]
  rfl

/-- Where the string cannot grow the loop of string_read goes round with what it had. -/
theorem stringRead_endless {received : Option Bytes} (h : Valid st) (hzero : st.growby = 0)
    (hfull : st.size < st.length + len) : stringRead memory st len received = endless := by
  have hold := h.length_le
  have hlt := h.size_lt
  have hmore : len > sizeDiff st.size st.length := by
    rw [sizeDiff_of_le hold hlt]
    omega
  have hpass : growPass st len 0 = .inl 0 := by
    rw [growPass, hzero, Nat.add_zero, sizeT_of_lt hlt, if_pos hmore]
    have hsame : ¬ sizeT (st.size + sizeT (0 + 0)) < st.size := by
      rw [Nat.add_zero, sizeT_of_lt (Nat.two_pow_pos 64), Nat.add_zero, sizeT_of_lt hlt]
      exact Nat.lt_irrefl _
    dsimp only
    rw [if_neg hsame]
    rfl
  have hloop : Loops.loop (growPass st len) (2 ^ 64) st.growby = none := by
    rw [hzero]
    exact Option.eq_none_iff_forall_ne_some.mpr fun r hr =>
      Loops.not_terminates_of_fixed hpass ⟨r, _, hr⟩
  rw [stringRead, if_pos hmore, growLoop, hloop]
  rfl

theorem read_grows {received : Option Bytes} (h : Valid st) (hgrow : 0 < st.growby)
    (hsums : SumsFit st len) (hfull : st.size < st.length + len) :
    ∃ r, stringRead memory st len received = returns r := by
  have hold := h.length_le
  have hmore : len > sizeDiff st.size st.length := by
    rw [sizeDiff_of_le hold h.size_lt]
    omega
  obtain ⟨r, hloop, hsettled⟩ := growLoop_safe h hgrow hsums.1 hsums.2 hfull
  rw [stringRead, if_pos hmore, hloop, returns_bind]
  rcases hsettled with ⟨rfl, -⟩ | ⟨k, hfewest, hsize, rfl⟩
  · exact ⟨(false, st), rfl⟩
  · have hpos : 0 < k * st.growby := Nat.mul_pos (hfewest.pos hfull) hgrow
    simp only [sizeT_of_lt hsize]
    cases hmemory : memory (st.size + k * st.growby) with
    | none =>
      rw [realloc_refused (h.not_static hgrow) (by omega) hmemory]
      exact ⟨(false, st), rfl⟩
    | some fresh =>
      obtain ⟨cells, hrealloc, hclear⟩ := realloc_granted h (h.not_static hgrow) hpos hmemory
      simp only [hrealloc, returns_bind, hclear]
      exact readInto_safe (h.grown hsize) hfewest.1

theorem safe_read {received : Option Bytes} (h : Valid st) :
    (Meets memory st (.read len received) →
      ∃ r, stringRead memory st len received = returns r) ∧
    ((∃ r, stringRead memory st len received = returns r) →
      Meets memory st (.read len received) ∨ Overflows st (.read len received)) := by
  by_cases hplace : st.length + len ≤ st.size
  · refine ⟨fun _ => ?_, fun _ => .inl (.inl hplace)⟩
    rw [stringRead, if_neg (by rw [sizeDiff_of_le h.length_le h.size_lt]; omega)]
    exact readInto_safe h hplace
  constructor
  · rintro (hroom | ⟨hgrow, hsums⟩)
    · exact absurd hroom hplace
    · exact read_grows h hgrow hsums (by omega)
  · rintro ⟨r, hr⟩
    rcases Nat.eq_zero_or_pos st.growby with hzero | hgrow
    · cases (stringRead_endless h hzero (by omega)).symm.trans hr
    · by_cases hsums : SumsFit st len
      · exact .inl (.inr ⟨hgrow, hsums⟩)
      · exact .inr hsums

/-- The four calls end inside the buffer where they meet their condition, and only there as long
as a size_t holds the sums. -/
theorem safe_when {call : Call} (h : Reachable δ st) :
    (Meets memory st call → Safe memory st call) ∧
      (Safe memory st call → Meets memory st call ∨ Overflows st call) := by
  have hvalid := h.valid
  have hsafe : Safe memory st call ↔ ∃ r, run memory st call = returns r :=
    ⟨fun ⟨ok, st', hr⟩ => ⟨(ok, st'), hr⟩, fun ⟨(ok, st'), hr⟩ => ⟨ok, st', hr⟩⟩
  rw [hsafe]
  cases call with
  | putc c => exact ⟨(safe_putc hvalid).mpr, fun hr => .inl ((safe_putc hvalid).mp hr)⟩
  | ensurez => exact ⟨(safe_ensurez hvalid).mpr, fun hr => .inl ((safe_ensurez hvalid).mp hr)⟩
  | concatb bytes => exact safe_concatb hvalid
  | read len received => exact safe_read hvalid

theorem safe_when_putc :
    Reachable Nat (stringLazyinit 4) ∧ Safe plenty (stringLazyinit 4) (.putc 65) :=
  have h : Reachable Nat (stringLazyinit 4) := .lazyinit 4
  ⟨h, (safe_when h).1 (.inr (.inl (by decide)))⟩

/-- Before the first byte of a new string there is nothing to read, and a string made from an
empty text has no place for a byte and no way to grow. -/
theorem unsafe_calls :
    (Reachable Nat ⟨0, 1, 1, .heap [0]⟩ ∧ stringEnsurez plenty ⟨0, 1, 1, .heap [0]⟩ = outside) ∧
      Reachable Nat ⟨0, 0, 0, .null⟩ ∧ stringPutc plenty ⟨0, 0, 0, .null⟩ 65 = outside ∧
      stringRead plenty ⟨0, 0, 0, .null⟩ 1 (some [65]) = endless ∧
      ¬ ∀ (memory : Memory) (st : StructString) (call : Call),
        Reachable Nat st → Safe memory st call := by
  have hputc : stringPutc plenty ⟨0, 0, 0, .null⟩ 65 = outside := rfl
  have hempty : Reachable Nat ⟨0, 0, 0, .null⟩ :=
    .initfromstringz plenty [] true _ (Nat.two_pow_pos 64) rfl
  refine ⟨⟨.init plenty 1 1 _ rfl, ?_⟩, hempty, hputc, ?_, fun hall => ?_⟩
  · rfl
  · exact stringRead_endless (valid_empty (Nat.two_pow_pos 64)) rfl (Nat.lt_succ_self 0)
  · obtain ⟨ok, st', hreturns⟩ := hall plenty _ (.putc 65) hempty
    cases hputc.symm.trans hreturns

end ChaosVpn.StringSafety
