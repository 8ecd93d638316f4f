import Mathlib.Algebra.Group.Nat.Defs
import ChaosVpn.CStrings
import ChaosVpn.Library.Blocks
import ChaosVpn.Library.Loops

/-! `struct string` in memory: the buffer behind `s`, how much of it is in use, and the sums of
type size_t that decide when it grows. -/

namespace ChaosVpn.StringMemory
open CStrings Blocks Blocks.Behaviour

/-- The value of a sum in a size_t, and of a difference. -/
def sizeT (n : Nat) : Nat := n % 2 ^ 64

def sizeDiff (a b : Nat) : Nat := sizeT (2 ^ 64 + a - b)

/-- What `s` points to. A static text is nothing that realloc() and free() know. -/
inductive Pointer
  | null
  | heap (cells : Bytes)
  | static (cells : Bytes)

namespace Pointer

def cells : Pointer → Bytes
  | null => []
  | heap cells => cells
  | static cells => cells

@[simp] theorem cells_null : null.cells = [] := rfl

@[simp] theorem cells_heap (cells : Bytes) : (heap cells).cells = cells := rfl

@[simp] theorem cells_static (cells : Bytes) : (static cells).cells = cells := rfl

/-- The same memory with other bytes in it. -/
def withCells (p : Pointer) (cells : Bytes) : Pointer :=
  match p with
  | null => null
  | heap _ => heap cells
  | static _ => static cells

def store (p : Pointer) (index : Nat) (bytes : Bytes) : Behaviour Pointer := do
  let cells ← overwrite p.cells index bytes
  return p.withCells cells

end Pointer

/-- The answer to a request for so many bytes: what is in them, unless there are none. -/
abbrev Memory := Nat → Option (Nat → UInt8)

def malloc (memory : Memory) (n : Nat) : Pointer :=
  match memory n with
  | none => .null
  | some fresh => .heap ((List.range n).map fresh)

/-- realloc() gives the old block back unchanged when there is no memory. A request to shrink
a block to nothing is undefined. -/
def realloc (memory : Memory) (p : Pointer) (n : Nat) : Behaviour Pointer :=
  match p with
  | .null => returns (malloc memory n)
  | .static _ => outside
  | .heap cells =>
    if n = 0 then outside
    else
      match memory n with
      | none => returns .null
      | some fresh => returns (.heap (cells.take n ++ ((List.range n).drop cells.length).map fresh))

structure StructString where
  length : Nat
  size : Nat
  growby : Nat
  s : Pointer

def stringInit (memory : Memory) (size growby : Nat) : Behaviour StructString :=
  match malloc memory size with
  | .null => returns ⟨0, 0, growby, .null⟩
  | s => do
    let s ← s.store 0 (List.replicate size 0)
    return ⟨0, size, growby, s⟩

def stringLazyinit (growby : Nat) : StructString := ⟨0, 0, growby, .null⟩

def stringMkstatic (z : Bytes) : StructString := ⟨z.length, z.length, 0, .static z⟩

def stringClear (st : StructString) : StructString := { st with length := 0 }

def stringFree (st : StructString) : Behaviour StructString :=
  match st.s with
  | .null => returns st
  | .heap _ => returns { st with s := .null, size := 0, length := 0 }
  | .static _ => outside

/-- The source and the target afterwards. -/
def stringMove (source : StructString) : StructString × StructString :=
  ({ source with s := .null, size := 0, length := 0 }, source)

/-- Bytes put behind the content. -/
def append (st : StructString) (bytes : Bytes) : Behaviour StructString := do
  let s ← st.s.store st.length bytes
  return { st with length := sizeT (st.length + bytes.length), s }

/-- One round of the loop that looks for a buffer with room for `len` more bytes. -/
def growPass (st : StructString) (len growby : Nat) : Nat ⊕ Option Nat :=
  if sizeDiff (sizeT (st.size + growby)) st.length < len then
    let growby := sizeT (growby + st.growby)
    if sizeT (st.size + growby) < st.size then .inr none else .inl growby
  else .inr (some growby)

/-- With so many values of `growby` a loop that has not ended by then never does. -/
def growLoop (st : StructString) (len : Nat) : Behaviour (Option Nat) :=
  ofLoop (Loops.loop (growPass st len) (2 ^ 64) st.growby)

def copyBehind (st : StructString) (sta : Bytes) (len : Nat) :
    Behaviour (Bool × StructString) := do
  let bytes ← fetch sta len
  let st ← append st bytes
  return (true, st)

/-- The new part of the buffer is cleared before the pointer is tested. -/
def stringConcatb (memory : Memory) (st : StructString) (sta : Bytes) (len : Nat) :
    Behaviour (Bool × StructString) :=
  if len > sizeDiff st.size st.length then
    if st.growby = 0 then returns (false, st)
    else do
      match ← growLoop st len with
      | none => return (false, st)
      | some growby =>
        let buf ← realloc memory st.s (sizeT (st.size + growby))
        let buf ← buf.store st.size (List.replicate growby 0)
        match buf with
        | .null => return (false, st)
        | buf => copyBehind { st with size := sizeT (st.size + growby), s := buf } sta len
  else copyBehind st sta len

def stringConcats (memory : Memory) (st ss : StructString) : Behaviour (Bool × StructString) :=
  stringConcatb memory st ss.s.cells ss.length

/-- The NUL byte of the text is copied as well and not counted. -/
def stringConcat (memory : Memory) (st : StructString) (text : Bytes) :
    Behaviour (Bool × StructString) := do
  let (ok, st) ← stringConcatb memory st (text ++ [0]) (text.length + 1)
  if ok then return (true, { st with length := sizeDiff st.length 1 }) else return (false, st)

def stringPutc (memory : Memory) (st : StructString) (c : UInt8) :
    Behaviour (Bool × StructString) :=
  if st.size = st.length then do
    match ← realloc memory st.s (sizeT (st.size + st.growby)) with
    | .null => return (false, st)
    | buf =>
      let buf ← buf.store st.size (List.replicate st.growby 0)
      let st ← append { st with size := sizeT (st.size + st.growby), s := buf } [c]
      return (true, st)
  else do
    let st ← append st [c]
    return (true, st)

/-- MAXSTRINGLEN is 32; no int has as many digits. -/
def stringPutint (memory : Memory) (st : StructString) (i : Int32) :
    Behaviour (Bool × StructString) :=
  let buf := decimalInt i.toInt
  if buf.length ≥ 31 then exits else stringConcatb memory st buf buf.length

/-- A NUL byte behind the content that is not counted. -/
def putTerminator (memory : Memory) (st : StructString) : Behaviour (Bool × StructString) := do
  let (ok, st) ← stringPutc memory st 0
  if ok then return (true, { st with length := sizeDiff st.length 1 }) else return (false, st)

def stringEnsurez (memory : Memory) (st : StructString) : Behaviour (Bool × StructString) :=
  match st.s with
  | .null => putTerminator memory st
  | s =>
    match s.cells[sizeDiff st.length 1]? with
    | none => outside
    | some c => if c = 0 then returns (true, st) else putTerminator memory st

/-- read() gives at most as many bytes as were asked for, or an error. -/
def readInto (st : StructString) (len : Nat) (received : Option Bytes) :
    Behaviour (Bool × StructString) := do
  let st ← append st ((received.getD []).take len)
  return (true, st)

def stringRead (memory : Memory) (st : StructString) (len : Nat) (received : Option Bytes) :
    Behaviour (Bool × StructString) :=
  if len > sizeDiff st.size st.length then do
    match ← growLoop st len with
    | none => return (false, st)
    | some growby =>
      match ← realloc memory st.s (sizeT (st.size + growby)) with
      | .null => return (false, st)
      | buf =>
        let buf ← buf.store st.size (List.replicate growby 0)
        readInto { st with size := sizeT (st.size + growby), s := buf } len received
  else readInto st len received

def stringInitfromstringz (memory : Memory) (text : Bytes) : Behaviour (Bool × StructString) :=
  stringConcatb memory (stringLazyinit text.length) text text.length

/-! Strings in order -/

/-- The buffer has the size that is noted, and the content lies in it. -/
structure Valid (st : StructString) : Prop where
  length_le : st.length ≤ st.size
  cells_length : st.s.cells.length = st.size
  size_lt : st.size < 2 ^ 64
  growby_lt : st.growby < 2 ^ 64
  static_growby : ∀ cells, st.s = .static cells → st.growby = 0

def content (st : StructString) : Bytes := st.s.cells.take st.length

def behind (st : StructString) : Bytes := st.s.cells.drop st.length

/-- The smallest number of steps of `growby` that make room for so many more bytes. -/
def FewestSteps (st : StructString) (len k : Nat) : Prop :=
  st.length + len ≤ st.size + k * st.growby ∧
    ∀ j < k, st.size + j * st.growby < st.length + len

/-- A size_t can hold a size with room for so many more bytes. -/
def Room (st : StructString) (len : Nat) : Prop :=
  ∃ k, st.length + len ≤ st.size + k * st.growby ∧ st.size + k * st.growby < 2 ^ 64

/-- The string with some bytes more at the end, grown no more than it had to be. -/
structure Appended (st st' : StructString) (bytes : Bytes) : Prop where
  valid : Valid st'
  growby : st'.growby = st.growby
  content : content st' = content st ++ bytes
  size : ∃ k, FewestSteps st bytes.length k ∧ st'.size = st.size + k * st.growby ∧
    behind st' = (behind st ++ List.replicate (k * st.growby) 0).drop bytes.length

variable {memory : Memory} {st st' : StructString} {bytes : Bytes} {len d : Nat}

theorem sizeT_of_lt {n : Nat} (h : n < 2 ^ 64) : sizeT n = n := Nat.mod_eq_of_lt h

theorem sizeDiff_of_le {a b : Nat} (h : b ≤ a) (ha : a < 2 ^ 64) : sizeDiff a b = a - b := by
  unfold sizeDiff sizeT
  omega

theorem valid_empty {growby : Nat} (h : growby < 2 ^ 64) : Valid ⟨0, 0, growby, .null⟩ :=
  ⟨Nat.le_refl 0, rfl, Nat.two_pow_pos 64, h, fun _ hstatic => nomatch hstatic⟩

theorem content_behind (st : StructString) : content st ++ behind st = st.s.cells :=
  List.take_append_drop _ _

theorem Valid.content_length (h : Valid st) : (content st).length = st.length := by
  rw [content, List.length_take, h.cells_length]
  exact Nat.min_eq_left h.length_le

theorem Valid.behind_length (h : Valid st) : (behind st).length = st.size - st.length := by
  rw [behind, List.length_drop, h.cells_length]

theorem Appended.length_eq (h : Valid st) (happended : Appended st st' bytes) :
    st'.length = st.length + bytes.length := by
  have hlength := congrArg List.length happended.content
  rwa [List.length_append, happended.valid.content_length, h.content_length] at hlength

theorem Appended.fewest (h : Appended st st' bytes) :
    ∃ k, FewestSteps st bytes.length k ∧ st'.size = st.size + k * st.growby := by
  obtain ⟨k, hfewest, hsize, -⟩ := h.size
  exact ⟨k, hfewest, hsize⟩

/-- A pointer with all its cells given. -/
theorem withCells_congr {p : Pointer} {cells : Bytes} (h : p.cells.length = cells.length) :
    (p.withCells cells).cells = cells := by
  cases p with
  | null => exact (List.length_eq_zero_iff.mp h.symm).symm
  | heap _ => rfl
  | static _ => rfl

theorem append_keeps (h : Valid st) (hreturns : append st bytes = returns st') :
    Valid st' ∧ st'.length = st.length + bytes.length := by
  obtain ⟨s, hstore, heq⟩ := bind_eq_returns.mp hreturns
  cases heq
  obtain ⟨cells, hwritten, heq⟩ := bind_eq_returns.mp hstore
  cases heq
  obtain ⟨hlength, hroom⟩ := overwrite_returns hwritten
  rw [h.cells_length] at hroom
  have hold := h.length_le
  have hlt := h.size_lt
  have hfits : st.length + bytes.length ≤ st.size := by
    rcases hroom with rfl | hroom
    · exact hold
    · exact hroom
  have hsum : sizeT (st.length + bytes.length) = st.length + bytes.length :=
    sizeT_of_lt (by omega)
  refine ⟨⟨?_, ?_, hlt, h.growby_lt, fun cells' hstatic => ?_⟩, hsum⟩
  · change sizeT (st.length + bytes.length) ≤ st.size
    rw [hsum]
    exact hfits
  · rw [withCells_congr hlength.symm, hlength, h.cells_length]
  · cases hs : st.s with
    | null => simp [hs, Pointer.withCells] at hstatic
    | heap _ => simp [hs, Pointer.withCells] at hstatic
    | static old => exact h.static_growby old hs

/-- Bytes that fit go behind the content. -/
theorem append_appended (h : Valid st) (bytes : Bytes)
    (hroom : st.length + bytes.length ≤ st.size) :
    ∃ st', append st bytes = returns st' ∧ Appended st st' bytes ∧ st'.size = st.size := by
  have hback : bytes.length ≤ (behind st).length := by
    rw [h.behind_length]
    omega
  have hsplit : st.s.cells = content st ++ behind st := (content_behind st).symm
  have hstore : overwrite st.s.cells st.length bytes =
      returns (content st ++ bytes ++ (behind st).drop bytes.length) := by
    rw [hsplit, ← h.content_length]
    exact overwrite_append _ _ _ hback
  have hreturns : append st bytes = returns { st with
      length := sizeT (st.length + bytes.length)
      s := st.s.withCells (content st ++ bytes ++ (behind st).drop bytes.length) } := by
    rw [append, Pointer.store, hstore]
    rfl
  obtain ⟨hvalid, hlength⟩ := append_keeps h hreturns
  have hcells := withCells_congr (overwrite_returns hstore).1.symm
  have hfront : (content st ++ bytes).length = sizeT (st.length + bytes.length) := by
    rw [List.length_append, h.content_length]
    exact hlength.symm
  refine ⟨_, hreturns, ⟨hvalid, rfl, ?_, 0, ⟨by omega, ?_⟩, by simp, ?_⟩, rfl⟩
  · rw [content, hcells]
    exact List.take_left' hfront
  · exact fun j hj => absurd hj (Nat.not_lt_zero j)
  · rw [behind, hcells, Nat.zero_mul, List.replicate_zero, List.append_nil]
    exact List.drop_left' hfront

theorem stringInit_spec {size growby : Nat} (hgrowby : growby < 2 ^ 64) (hsize : size < 2 ^ 64)
    (h : stringInit memory size growby = returns st) :
    Valid st ∧ st.growby = growby ∧ content st = [] := by
  unfold stringInit malloc at h
  cases hmemory : memory size with
  | none =>
    simp only [hmemory] at h
    cases h
    exact ⟨valid_empty hgrowby, rfl, rfl⟩
  | some fresh =>
    have hclear : overwrite ((List.range size).map fresh) 0 (List.replicate size (0 : UInt8)) =
        returns (List.replicate size 0) := by
      have hwritten := overwrite_append [] ((List.range size).map fresh)
        (List.replicate size (0 : UInt8)) (by simp)
      have hnone : ((List.range size).map fresh).drop size = [] :=
        List.drop_eq_nil_of_le (by simp)
      simpa [hnone] using hwritten
    simp only [hmemory, Pointer.store, Pointer.cells_heap, hclear, returns_bind] at h
    cases h
    exact ⟨⟨Nat.zero_le _, List.length_replicate, hsize, hgrowby, fun _ hs => nomatch hs⟩, rfl, rfl⟩

/-! The loop that grows the buffer -/

theorem growPass_lt {growby growby' : Nat} (h : growPass st len growby = .inl growby') :
    growby' < 2 ^ 64 := by
  unfold growPass at h
  split at h
  · dsimp only at h
    split at h
    · cases h
    · cases h
      exact Nat.mod_lt _ (by decide)
  · cases h

theorem growLoop_of_returns (hgrowby : st.growby < 2 ^ 64) {r : Option Nat}
    (h : Loops.Returns (growPass st len) st.growby r) : growLoop st len = returns r := by
  have hloop := h.loop_eq (fun growby => growby < 2 ^ 64) id
    (fun _ _ _ hpass => growPass_lt hpass) (fun _ h => h) (fun _ _ _ _ h => h) hgrowby
  rw [growLoop, hloop]
  rfl

/-- What the loop can come to: room after the fewest steps, or a sum that does not fit. -/
def Settled (st : StructString) (len : Nat) (r : Option Nat) : Prop :=
  (r = none ∧ ¬ Room st len) ∨
    ∃ k, FewestSteps st len k ∧ st.size + k * st.growby < 2 ^ 64 ∧ r = some (k * st.growby)

theorem growPass_settles (h : Valid st) (hgrow : 0 < st.growby)
    (hwrap : ∀ j, st.size + j * st.growby < st.length + len → (j + 1) * st.growby < 2 ^ 64)
    {j : Nat} (hbefore : st.size + j * st.growby < st.length + len)
    (hfits : st.size + (j + 1) * st.growby < 2 ^ 64) :
    ∃ r, Loops.Returns (growPass st len) ((j + 1) * st.growby) r ∧ Settled st len r := by
  induction hn : 2 ^ 64 - (st.size + j * st.growby) using Nat.strongRecOn generalizing j with
  | ind n ih =>
    have hlength := h.length_le
    have hmore : (j + 1) * st.growby = j * st.growby + st.growby := Nat.succ_mul j st.growby
    have hroom : sizeDiff (sizeT (st.size + (j + 1) * st.growby)) st.length < len ↔
        st.size + (j + 1) * st.growby < st.length + len := by
      rw [sizeT_of_lt hfits, sizeDiff_of_le (by omega) hfits]
      omega
    by_cases hshort : st.size + (j + 1) * st.growby < st.length + len
    · have hnext : (j + 1) * st.growby + st.growby = (j + 2) * st.growby :=
        (Nat.succ_mul (j + 1) st.growby).symm
      have hsum : sizeT ((j + 1) * st.growby + st.growby) = (j + 2) * st.growby := by
        rw [hnext]
        exact sizeT_of_lt (hwrap (j + 1) hshort)
      by_cases hagain : st.size + (j + 2) * st.growby < 2 ^ 64
      · have hpass : growPass st len ((j + 1) * st.growby) = .inl ((j + 2) * st.growby) := by
          have hsize : ¬ sizeT (st.size + (j + 2) * st.growby) < st.size := by
            rw [sizeT_of_lt hagain]
            omega
          rw [growPass, if_pos (hroom.mpr hshort)]
          dsimp only
          rw [hsum, if_neg hsize]
        obtain ⟨r, hreturns, hsettled⟩ := ih _ (by omega) hshort hagain rfl
        exact ⟨r, (Loops.returns_of_inl hpass).mpr hreturns, hsettled⟩
      · have hpass : growPass st len ((j + 1) * st.growby) = .inr none := by
          have hsize : sizeT (st.size + (j + 2) * st.growby) < st.size := by
            have hless : (j + 2) * st.growby < 2 ^ 64 := hwrap (j + 1) hshort
            have hold := h.size_lt
            unfold sizeT
            omega
          rw [growPass, if_pos (hroom.mpr hshort)]
          dsimp only
          rw [hsum, if_pos hsize]
        refine ⟨none, (Loops.returns_of_inr hpass).mpr rfl, .inl ⟨rfl, ?_⟩⟩
        rintro ⟨k, henough, hlt⟩
        have hk : j + 2 ≤ k := by
          by_contra hk
          have hle : k * st.growby ≤ (j + 1) * st.growby := Nat.mul_le_mul_right _ (by omega)
          omega
        have hle : (j + 2) * st.growby ≤ k * st.growby := Nat.mul_le_mul_right _ hk
        omega
    · have hpass : growPass st len ((j + 1) * st.growby) = .inr (some ((j + 1) * st.growby)) := by
        rw [growPass, if_neg (fun hless => hshort (hroom.mp hless))]
      refine ⟨_, (Loops.returns_of_inr hpass).mpr rfl, .inr ⟨j + 1, ⟨by omega, ?_⟩, hfits, rfl⟩⟩
      intro i hi
      have hle : i * st.growby ≤ j * st.growby := Nat.mul_le_mul_right _ (by omega)
      omega

theorem growLoop_settles (h : Valid st) (hgrow : 0 < st.growby)
    (hfirst : st.size + st.growby < 2 ^ 64)
    (hwrap : ∀ j, st.size + j * st.growby < st.length + len → (j + 1) * st.growby < 2 ^ 64)
    (hfull : st.size < st.length + len) :
    ∃ r, growLoop st len = returns r ∧ Settled st len r := by
  obtain ⟨r, hreturns, hsettled⟩ :=
    growPass_settles h hgrow hwrap (j := 0) (by simpa using hfull) (by simpa using hfirst)
  rw [Nat.zero_add, Nat.one_mul] at hreturns
  exact ⟨r, growLoop_of_returns h.growby_lt hreturns, hsettled⟩

/-- Where a size_t holds a size with room, the loop finds the first such size. -/
theorem growLoop_fewest (h : Valid st) (hgrow : 0 < st.growby) (hroom : Room st len)
    (hfull : st.size < st.length + len) :
    ∃ k, FewestSteps st len k ∧ st.size + k * st.growby < 2 ^ 64 ∧
      growLoop st len = returns (some (k * st.growby)) := by
  obtain ⟨n, henough, hlt⟩ := hroom
  have hsteps : ∀ j, st.size + j * st.growby < st.length + len →
      (j + 1) * st.growby ≤ n * st.growby := by
    intro j hj
    refine Nat.mul_le_mul_right _ (Nat.succ_le_of_lt ?_)
    by_contra hle
    have hmul : n * st.growby ≤ j * st.growby := Nat.mul_le_mul_right _ (by omega)
    omega
  have hone := hsteps 0 (by simpa using hfull)
  obtain ⟨r, hreturns, hsettled⟩ := growLoop_settles h hgrow (by omega)
    (fun j hj => by have hle := hsteps j hj; omega) hfull
  rcases hsettled with ⟨-, hnone⟩ | ⟨k, hfewest, hfits, rfl⟩
  · exact absurd ⟨n, henough, hlt⟩ hnone
  · exact ⟨k, hfewest, hfits, hreturns⟩

/-! Growing -/

/-- The string with a cleared piece of buffer more. -/
def grown (st : StructString) (d : Nat) : StructString :=
  { st with size := st.size + d, s := .heap (st.s.cells ++ List.replicate d 0) }

theorem Valid.grown (h : Valid st) (hfits : st.size + d < 2 ^ 64) : Valid (grown st d) where
  length_le := Nat.le_trans h.length_le (Nat.le_add_right _ _)
  cells_length := by simp [StringMemory.grown, h.cells_length]
  size_lt := hfits
  growby_lt := h.growby_lt
  static_growby := fun _ hstatic => nomatch hstatic

theorem Valid.content_grown (h : Valid st) : content (StringMemory.grown st d) = content st :=
  List.take_append_of_le_length (by rw [h.cells_length]; exact h.length_le)

theorem Valid.behind_grown (h : Valid st) :
    behind (StringMemory.grown st d) = behind st ++ List.replicate d 0 :=
  List.drop_append_of_le_length (by rw [h.cells_length]; exact h.length_le)

theorem realloc_refused (hstatic : ∀ cells, st.s ≠ .static cells) {n : Nat} (hn : n ≠ 0)
    (hmemory : memory n = none) : realloc memory st.s n = returns .null := by
  cases hs : st.s with
  | null => simp [realloc, malloc, hmemory]
  | heap cells => simp [realloc, hmemory, hn]
  | static cells => exact absurd hs (hstatic cells)

/-- The new block and the clearing of its new part. -/
theorem realloc_granted (h : Valid st) (hstatic : ∀ cells, st.s ≠ .static cells) (hd : 0 < d)
    {fresh : Nat → UInt8} (hmemory : memory (st.size + d) = some fresh) :
    ∃ cells, realloc memory st.s (st.size + d) = returns (.heap cells) ∧
      (Pointer.heap cells).store st.size (List.replicate d 0) = returns (grown st d).s := by
  have hcells := h.cells_length
  have hpart : ∀ rest : Bytes, rest.length = d →
      (Pointer.heap (st.s.cells ++ rest)).store st.size (List.replicate d 0) =
        returns (grown st d).s := by
    intro rest hrest
    have hwritten := overwrite_append st.s.cells rest (List.replicate d (0 : UInt8))
      (by simp [hrest])
    have hnone : rest.drop d = [] := List.drop_eq_nil_of_le (Nat.le_of_eq hrest)
    rw [hcells, List.length_replicate, hnone, List.append_nil] at hwritten
    rw [Pointer.store, Pointer.cells_heap, hwritten]
    rfl
  cases hs : st.s with
  | null =>
    have hsize : st.size = 0 := by rw [← hcells, hs]; rfl
    refine ⟨(List.range (st.size + d)).map fresh, by simp [realloc, malloc, hmemory], ?_⟩
    have hnew := hpart ((List.range (st.size + d)).map fresh) (by simp [hsize])
    rwa [hs, Pointer.cells_null, List.nil_append] at hnew
  | heap cells =>
    have hsize : cells.length = st.size := by rw [← hcells, hs]; rfl
    have htake : cells.take (st.size + d) = cells := List.take_of_length_le (by omega)
    refine ⟨cells ++ ((List.range (st.size + d)).drop st.size).map fresh, ?_, ?_⟩
    · have hne : st.size + d ≠ 0 := by omega
      simp only [realloc, if_neg hne, hmemory, htake, hsize]
    · have hnew := hpart (((List.range (st.size + d)).drop st.size).map fresh) (by simp)
      rwa [hs] at hnew
  | static cells => exact absurd hs (hstatic cells)

theorem Appended.of_grown (h : Valid st) {k : Nat}
    (hfewest : FewestSteps st bytes.length k)
    (happended : Appended (grown st (k * st.growby)) st' bytes)
    (hsize : st'.size = st.size + k * st.growby) : Appended st st' bytes := by
  obtain ⟨hvalid, hgrowby, hcontent, k', -, hsize', hbehind⟩ := happended
  refine ⟨hvalid, hgrowby, hcontent.trans (by rw [h.content_grown]), k, hfewest, hsize, ?_⟩
  have hzero : k' * st.growby = 0 := by
    have hsame : st.size + k * st.growby = st.size + k * st.growby + k' * st.growby :=
      hsize.symm.trans hsize'
    omega
  have hnone : k' * (grown st (k * st.growby)).growby = 0 := hzero
  rw [hbehind, hnone, h.behind_grown, List.replicate_zero, List.append_nil]

theorem Valid.not_static (h : Valid st) (hgrow : 0 < st.growby) :
    ∀ cells, st.s ≠ .static cells :=
  fun cells hs => absurd (h.static_growby cells hs) (by omega)

/-- Bytes that need growing go behind the content of the grown string. -/
theorem append_grown (h : Valid st) (bytes : Bytes) {k : Nat}
    (hfewest : FewestSteps st bytes.length k) (hfits : st.size + k * st.growby < 2 ^ 64) :
    ∃ st', append (grown st (k * st.growby)) bytes = returns st' ∧ Appended st st' bytes := by
  obtain ⟨st', hreturns, happended, hsize⟩ :=
    append_appended (h.grown hfits) bytes hfewest.1
  exact ⟨st', hreturns, happended.of_grown h hfewest hsize⟩

/-! The operations -/

variable {sta : Bytes} {c : UInt8}

theorem FewestSteps.pos {k : Nat} (h : FewestSteps st len k) (hfull : st.size < st.length + len) :
    0 < k := by
  rcases Nat.eq_zero_or_pos k with rfl | hk
  · have henough := h.1
    omega
  · exact hk

theorem copyBehind_eq (hlen : len ≤ sta.length) (h : append st (sta.take len) = returns st') :
    copyBehind st sta len = returns (true, st') := by
  rw [copyBehind, fetch, if_pos hlen, returns_bind, h]
  rfl

theorem stringConcatb_appended (h : Valid st) (hgrow : 0 < st.growby) (hroom : Room st len)
    (hlen : len ≤ sta.length)
    (hmemory : ∀ k, FewestSteps st len k → memory (st.size + k * st.growby) ≠ none) :
    ∃ st', stringConcatb memory st sta len = returns (true, st') ∧
      Appended st st' (sta.take len) := by
  have htake : (sta.take len).length = len := List.length_take_of_le hlen
  have hlength := h.length_le
  have hdiff := sizeDiff_of_le hlength h.size_lt
  by_cases hfull : st.size < st.length + len
  · obtain ⟨k, hfewest, hfits, hloop⟩ := growLoop_fewest h hgrow hroom hfull
    have hpos : 0 < k * st.growby := Nat.mul_pos (hfewest.pos hfull) hgrow
    obtain ⟨fresh, hfresh⟩ := Option.ne_none_iff_exists'.mp (hmemory k hfewest)
    obtain ⟨cells, hrealloc, hclear⟩ := realloc_granted h (h.not_static hgrow) hpos hfresh
    obtain ⟨st', hreturns, happended⟩ :=
      append_grown h (sta.take len) (by rwa [htake]) hfits
    refine ⟨st', ?_, happended⟩
    have hmore : len > sizeDiff st.size st.length := by
      rw [hdiff]
      omega
    rw [stringConcatb, if_pos hmore, if_neg (by omega), hloop]
    simp only [returns_bind, sizeT_of_lt hfits, hrealloc, hclear]
    exact copyBehind_eq hlen hreturns
  · obtain ⟨st', hreturns, happended, -⟩ :=
      append_appended h (sta.take len) (by rw [htake]; omega)
    refine ⟨st', ?_, happended⟩
    have hfit : ¬ len > sizeDiff st.size st.length := by
      rw [hdiff]
      omega
    rw [stringConcatb, if_neg hfit]
    exact copyBehind_eq hlen hreturns

theorem copyBehind_true (h : copyBehind st sta len = returns (true, st')) : len ≤ sta.length := by
  obtain ⟨bytes, hfetch, -⟩ := bind_eq_returns.mp h
  by_contra hlong
  rw [fetch, if_neg hlong] at hfetch
  cases hfetch

/-- Where string_concatb succeeds there were so many bytes to copy. -/
theorem stringConcatb_true (h : stringConcatb memory st sta len = returns (true, st')) :
    len ≤ sta.length := by
  unfold stringConcatb at h
  split at h
  · split at h
    · cases h
    · obtain ⟨grows, -, h⟩ := bind_eq_returns.mp h
      cases grows with
      | none => cases h
      | some growby =>
        obtain ⟨buf, -, h⟩ := bind_eq_returns.mp h
        obtain ⟨buf, -, h⟩ := bind_eq_returns.mp h
        cases buf with
        | null => cases h
        | heap cells => exact copyBehind_true h
        | static cells => exact copyBehind_true h
  · exact copyBehind_true h

theorem stringPutc_appended (h : Valid st) (hgrow : 0 < st.growby) (hroom : Room st 1)
    (hmemory : st.size = st.length → memory (st.size + st.growby) ≠ none) :
    ∃ st', stringPutc memory st c = returns (true, st') ∧ Appended st st' [c] := by
  have hlength := h.length_le
  by_cases hfull : st.size = st.length
  · obtain ⟨n, henough, hlt⟩ := hroom
    have hn : 0 < n := Nat.pos_of_ne_zero (by rintro rfl; omega)
    have hone : 1 * st.growby ≤ n * st.growby := Nat.mul_le_mul_right _ hn
    have hfits : st.size + 1 * st.growby < 2 ^ 64 := by omega
    have hfewest : FewestSteps st [c].length 1 := by
      refine ⟨?_, fun j hj => ?_⟩
      · simp only [List.length_singleton]
        omega
      · obtain rfl : j = 0 := by omega
        simp only [List.length_singleton]
        omega
    obtain ⟨fresh, hfresh⟩ := Option.ne_none_iff_exists'.mp (hmemory hfull)
    obtain ⟨cells, hrealloc, hclear⟩ := realloc_granted h (h.not_static hgrow) hgrow hfresh
    obtain ⟨st', hreturns, happended⟩ := append_grown h [c] hfewest hfits
    refine ⟨st', ?_, happended⟩
    rw [Nat.one_mul] at hreturns hfits
    rw [stringPutc, if_pos hfull]
    simp only [sizeT_of_lt hfits, hrealloc, returns_bind, hclear]
    exact congrArg (· >>= fun st => returns (true, st)) hreturns
  · obtain ⟨st', hreturns, happended, -⟩ := append_appended h [c] (by
      simp only [List.length_singleton]
      omega)
    refine ⟨st', ?_, happended⟩
    rw [stringPutc, if_neg hfull, hreturns]
    rfl

theorem stringPutc_refused (hstatic : ∀ cells, st.s ≠ .static cells) (hgrow : 0 < st.growby)
    (hfits : st.size + st.growby < 2 ^ 64) (hfull : st.size = st.length)
    (hmemory : memory (st.size + st.growby) = none) :
    stringPutc memory st c = returns (false, st) := by
  rw [stringPutc, if_pos hfull, sizeT_of_lt hfits,
    realloc_refused hstatic (by omega) hmemory]
  rfl

/-! A NUL byte that is not counted -/

def Terminated (st : StructString) : Prop := st.s.cells[st.length]? = some 0

def shortened (st : StructString) : StructString := { st with length := sizeDiff st.length 1 }

theorem shortened_keeps (h : Valid st) {n : Nat}
    (hlength : st.length = n + 1) : Valid (shortened st) ∧ (shortened st).length = n := by
  have hold := h.length_le
  have hlt := h.size_lt
  have hless : (shortened st).length = n := by
    change sizeDiff st.length 1 = n
    rw [sizeDiff_of_le (by omega) (by omega)]
    omega
  refine ⟨⟨?_, h.cells_length, h.size_lt, h.growby_lt, h.static_growby⟩, hless⟩
  change (shortened st).length ≤ st.size
  omega

theorem shortened_spec (h : Valid st) (hcontent : content st = bytes ++ [0]) :
    Valid (shortened st) ∧ content (shortened st) = bytes ∧ Terminated (shortened st) ∧
      (shortened st).length + 1 = st.length := by
  have hlength : st.length = bytes.length + 1 := by
    rw [← h.content_length, hcontent, List.length_append, List.length_singleton]
  obtain ⟨hvalid, hless⟩ := shortened_keeps h hlength
  have hcells : st.s.cells = bytes ++ ([0] ++ behind st) := by
    rw [← List.append_assoc, ← hcontent]
    exact (content_behind st).symm
  refine ⟨hvalid, ?_, ?_, by omega⟩
  · rw [content, hless]
    change st.s.cells.take bytes.length = bytes
    rw [hcells]
    exact List.take_left
  · rw [Terminated, hless]
    change st.s.cells[bytes.length]? = some 0
    rw [hcells]
    simp

/-- What is left of the room behind some bytes. -/
theorem Room.rest (h : Valid st) (happended : Appended st st' bytes)
    (hroom : Room st (bytes.length + len)) : Room st' len := by
  obtain ⟨n, henough, hlt⟩ := hroom
  have hlength := happended.length_eq h
  obtain ⟨-, hgrowby, -, k, hfewest, hsize, -⟩ := happended
  have hk : k ≤ n := by
    by_contra hless
    have hshort := hfewest.2 n (by omega)
    omega
  have hsplit : k * st.growby + (n - k) * st.growby = n * st.growby := by
    rw [← Nat.add_mul]
    congr 1
    omega
  refine ⟨n - k, ?_, ?_⟩
  · rw [hlength, hsize, hgrowby]
    omega
  · rw [hsize, hgrowby]
    omega

theorem stringConcat_appended {text : Bytes} (h : Valid st) (hgrow : 0 < st.growby)
    (hroom : Room st (text.length + 1))
    (hmemory : ∀ k, FewestSteps st (text.length + 1) k → memory (st.size + k * st.growby) ≠ none) :
    ∃ st', stringConcat memory st text = returns (true, shortened st') ∧
      Appended st st' (text ++ [0]) := by
  have hlength : text.length + 1 = (text ++ [0]).length := by simp
  obtain ⟨st', hreturns, happended⟩ := stringConcatb_appended h hgrow hroom
    (Nat.le_of_eq hlength) hmemory
  have hall : (text ++ [0]).take (text.length + 1) = text ++ [0] := by
    rw [hlength]
    exact List.take_length
  rw [hall] at happended
  refine ⟨st', ?_, happended⟩
  rw [stringConcat, hreturns]
  rfl

theorem putTerminator_appended (h : Valid st) (hgrow : 0 < st.growby) (hroom : Room st 1)
    (hmemory : st.size = st.length → memory (st.size + st.growby) ≠ none) :
    ∃ st', putTerminator memory st = returns (true, shortened st') ∧ Appended st st' [0] := by
  obtain ⟨st', hreturns, happended⟩ := stringPutc_appended (c := 0) h hgrow hroom hmemory
  refine ⟨st', ?_, happended⟩
  rw [putTerminator, hreturns]
  rfl

theorem digits_length (n k : Nat) (h : n < 10 ^ (k + 1)) : (decimal n).length ≤ k + 1 := by
  rw [decimal, List.length_map]
  exact (Nat.length_toDigits_le_iff (by decide) (Nat.succ_pos k)).mpr h

theorem decimalInt_length (i : Int32) : (decimalInt i.toInt).length < 31 := by
  have hlow := i.le_toInt
  have hhigh := i.toInt_lt
  have hdigits := digits_length i.toInt.natAbs 9 (by omega)
  unfold decimalInt
  split
  · have hsign : (ascii "-").length = 1 := by decide
    rw [List.length_append, hsign]
    omega
  · omega

theorem stringPutint_eq (memory : Memory) (st : StructString) (i : Int32) :
    stringPutint memory st i =
      stringConcatb memory st (decimalInt i.toInt) (decimalInt i.toInt).length :=
  if_neg (Nat.not_le_of_lt (decimalInt_length i))

end ChaosVpn.StringMemory
