import ChaosVpn.HostsDirectory
import ChaosVpn.Library.TextMemory

/-! The path that fs_writecontents_safe opens. It is put together in a buffer whose size
is computed in an `unsigned int`. -/

namespace ChaosVpn.HostFilePath
open CStrings TextMemory HostsDirectory

/-- The text of a `char*`. -/
structure CText where
  text : Bytes
  noNul : (0 : UInt8) ∉ text

def toUnsigned (v : Nat) : Nat := v % 2 ^ 32

def underscore : UInt8 := 95

def strcpy (m : Memory UInt8) (dest : Int) (src : Bytes) : Memory UInt8 :=
  pokeAll m dest (src ++ [0])

/-- Like every search for a NUL byte this one is limited; the limit stands for the time
that it may take. -/
def strcat (limit : Nat) (m : Memory UInt8) (dest : Int) (src : Bytes) : Option (Memory UInt8) :=
  (readText 0 m.cell limit dest).map fun text => strcpy m (dest + text.length) src

/-- The loop over the characters of the name. -/
def replaceSlashes : Nat → Memory UInt8 → Int → Option (Memory UInt8)
  | 0, _, _ => none
  | limit + 1, m, ptr =>
    if m.cell ptr = 0 then some m
    else
      replaceSlashes limit (if m.cell ptr = slash then poke m ptr underscore else m) (ptr + 1)

/-- The size of the buffer, the indices written to, and the path handed to open(). -/
structure BuiltPath where
  reqlen : Nat
  written : List Int
  path : Bytes

/-- The buffer starts at the address 0, with anything in it. -/
def buildPath (limit : Nat) (heap : Int → UInt8) (dir fn : Bytes) : Option BuiltPath :=
  let dlen := toUnsigned (dir.length + 1)
  let reqlen := toUnsigned (dlen + fn.length + 1)
  let ptr := strcpy ⟨heap, []⟩ 0 dir
  let ptr := poke ptr (dlen - 1) slash
  let ptr := poke ptr dlen 0
  (strcat limit ptr 0 fn).bind fun ptr =>
    (replaceSlashes limit ptr dlen).bind fun buf =>
      (readText 0 buf.cell limit 0).map fun path => ⟨reqlen, buf.written, path⟩

/-- A path directly below the directory, put together inside the buffer. -/
structure StaysInside (dir fn : Bytes) (built : BuiltPath) : Prop where
  path : built.path = dir ++ slash :: safeName fn
  length : (safeName fn).length = fn.length
  noSlash : slash ∉ safeName fn
  inBounds : ∀ i ∈ built.written, 0 ≤ i ∧ i < built.reqlen

def OpensInside (heap : Int → UInt8) (dir fn : Bytes) : Prop :=
  (∃ limit built, buildPath limit heap dir fn = some built) ∧
    ∀ limit built, buildPath limit heap dir fn = some built → StaysInside dir fn built

/-! The name -/

theorem slash_notMem_safeName (fn : Bytes) : slash ∉ safeName fn := by
  simp only [safeName, List.mem_map, not_exists, not_and]
  intro c _ hc
  split at hc
  · exact absurd hc (by decide)
  · rename_i hne
    exact hne hc

theorem nul_notMem_safeName {fn : Bytes} (h : (0 : UInt8) ∉ fn) : (0 : UInt8) ∉ safeName fn := by
  simp only [safeName, List.mem_map, not_exists, not_and]
  intro c hmem hc
  split at hc
  · exact absurd hc (by decide)
  · exact h (hc ▸ hmem)

/-- What the loop makes of the name at an address. -/
structure Replaced (m m' : Memory UInt8) (ptr : Int) (fn : Bytes) : Prop where
  name : Holds m'.cell ptr (safeName fn ++ [0])
  before : ∀ i < ptr, m'.cell i = m.cell i
  grows : ∀ i ∈ m.written, i ∈ m'.written
  inside : ∀ i ∈ m'.written, i ∈ m.written ∨ ptr ≤ i ∧ i < ptr + fn.length

theorem replaceSlashes_spec {m : Memory UInt8} {ptr : Int} {fn : Bytes}
    (h : Holds m.cell ptr (fn ++ [0])) (hnul : (0 : UInt8) ∉ fn) :
    ∃ m', Replaced m m' ptr fn ∧ ∀ limit,
      replaceSlashes limit m ptr = if fn.length < limit then some m' else none := by
  induction fn generalizing m ptr with
  | nil =>
    refine ⟨m, ⟨h, fun _ _ => rfl, fun _ hi => hi, fun _ hi => .inl hi⟩, fun limit => ?_⟩
    obtain ⟨hc, -⟩ := h
    cases limit <;> simp [replaceSlashes, hc]
  | cons c fn ih =>
    obtain ⟨hc, hfn⟩ := h
    obtain ⟨hne, hnul⟩ : 0 ≠ c ∧ (0 : UInt8) ∉ fn := by simpa using hnul
    let next := if m.cell ptr = slash then poke m ptr underscore else m
    have hcell : next.cell ptr = if c = slash then 95 else c := by
      by_cases hslash : c = slash <;> simp [next, hc, hslash, underscore]
    have hother : ∀ i, i ≠ ptr → next.cell i = m.cell i := by
      intro i hi
      by_cases hslash : c = slash
      · simp only [next, hc, hslash, if_true, poke_cell_of_ne hi]
      · simp only [next, hc, hslash, if_false]
    have hwritten : ∀ i, i ∈ next.written ↔ i ∈ m.written ∨ c = slash ∧ i = ptr := by
      intro i
      by_cases hslash : c = slash <;> simp [next, hc, hslash, mem_written_poke]
    obtain ⟨m', hreplaced, hloop⟩ := ih (hfn.congr fun i hi _ => hother i (by omega)) hnul
    refine ⟨m', ⟨⟨?_, hreplaced.name⟩, fun i hi => ?_, fun i hi => ?_, fun i hi => ?_⟩,
      fun limit => ?_⟩
    · rw [hreplaced.before ptr (by omega), hcell]
    · rw [hreplaced.before i (by omega), hother i (by omega)]
    · exact hreplaced.grows i ((hwritten i).mpr (.inl hi))
    · simp only [List.length_cons]
      rcases hreplaced.inside i hi with hi | ⟨hle, hlt⟩
      · rcases (hwritten i).mp hi with hi | ⟨-, rfl⟩
        · exact .inl hi
        · exact .inr (by omega)
      · exact .inr (by omega)
    · cases limit with
      | zero => rfl
      | succ limit =>
        rw [replaceSlashes, hc, if_neg (Ne.symm hne), ← hc]
        exact (hloop limit).trans (by simp)

theorem replaceSlashes_grows {limit : Nat} {m m' : Memory UInt8} {ptr : Int}
    (h : replaceSlashes limit m ptr = some m') : ∀ i ∈ m.written, i ∈ m'.written := by
  induction limit generalizing m ptr with
  | zero => cases h
  | succ limit ih =>
    rw [replaceSlashes] at h
    split at h
    · cases h
      exact fun i hi => hi
    · intro i hi
      refine ih h i ?_
      split
      · exact mem_written_poke.mpr (.inl hi)
      · exact hi

/-! The path -/

variable {heap : Int → UInt8} {dir fn : Bytes}

/-- The buffer as long as the length of the directory fits. -/
theorem buildPath_of_fits (heap : Int → UInt8) (hdir : (0 : UInt8) ∉ dir) (hfn : (0 : UInt8) ∉ fn)
    (hfits : dir.length + 1 < 2 ^ 32) :
    ∃ written, (∀ i : Int, i ∈ written ↔ 0 ≤ i ∧ i < dir.length + fn.length + 2) ∧ ∀ limit,
      buildPath limit heap dir fn = if dir.length + fn.length + 1 < limit then
        some ⟨toUnsigned (dir.length + fn.length + 2), written, dir ++ slash :: safeName fn⟩
      else none := by
  have hdlen : toUnsigned (dir.length + 1) = dir.length + 1 := Nat.mod_eq_of_lt hfits
  let ptr := poke (poke (strcpy ⟨heap, []⟩ 0 dir) dir.length slash) (dir.length + 1) 0
  have hwritten : ∀ i, i ∈ ptr.written ↔ 0 ≤ i ∧ i < dir.length + 2 := by
    intro i
    simp only [ptr, mem_written_poke, strcpy, mem_written_pokeAll, List.not_mem_nil, false_or,
      List.length_append, List.length_singleton]
    omega
  have hdirectory : Holds ptr.cell 0 (dir ++ [slash] ++ [0]) := by
    have hcopied := (holds_append.mp (pokeAll_holds ⟨heap, []⟩ 0 (dir ++ [0]))).1
    refine holds_append.mpr ⟨holds_append.mpr ⟨hcopied.congr fun i hi hlt => ?_, ?_, trivial⟩, ?_⟩
    · rw [poke_cell_of_ne (by omega), poke_cell_of_ne (by omega), strcpy]
    · rw [poke_cell_of_ne (by omega), zero_add, poke_cell]
    · refine ⟨?_, trivial⟩
      have haddress : (0 : Int) + ((dir ++ [slash]).length : Int) = dir.length + 1 := by simp
      rw [haddress, poke_cell]
  have hnul : (0 : UInt8) ∉ dir ++ [slash] := by
    simp only [List.mem_append, List.mem_singleton, not_or]
    exact ⟨hdir, by decide⟩
  let cat := strcpy ptr (dir.length + 1) fn
  have hname : Holds cat.cell (dir.length + 1) (fn ++ [0]) := pokeAll_holds _ _ _
  obtain ⟨buf, hreplaced, hloop⟩ := replaceSlashes_spec hname hfn
  have hpath : Holds buf.cell 0 (dir ++ slash :: safeName fn ++ [0]) := by
    have htext : dir ++ slash :: safeName fn ++ [0] = dir ++ [slash] ++ (safeName fn ++ [0]) := by
      simp
    rw [htext, holds_append]
    refine ⟨(holds_append.mp hdirectory).1.congr fun i hi hlt => ?_, ?_⟩
    · have hlt' : i < (dir.length : Int) + 1 := by simpa using hlt
      rw [hreplaced.before i hlt']
      exact pokeAll_cell_of_lt hlt'
    · simpa using hreplaced.name
  have hpathNul : (0 : UInt8) ∉ dir ++ slash :: safeName fn := by
    simp only [List.mem_append, List.mem_cons, not_or]
    exact ⟨hdir, by decide, nul_notMem_safeName hfn⟩
  refine ⟨buf.written, fun i => ?_, fun limit => ?_⟩
  · have hcat : i ∈ cat.written ↔ 0 ≤ i ∧ i < dir.length + fn.length + 2 := by
      simp only [cat, strcpy, mem_written_pokeAll, hwritten, List.length_append,
        List.length_singleton]
      omega
    constructor
    · intro hi
      rcases hreplaced.inside i hi with hi | hi
      · exact hcat.mp hi
      · omega
    · exact fun hi => hreplaced.grows i (hcat.mpr hi)
  · have hstrcat : strcat limit ptr 0 fn = if dir.length + 1 < limit then some cat else none := by
      rw [strcat, readText_of_holds hdirectory hnul]
      by_cases hlimit : dir.length + 1 < limit <;> simp [hlimit, cat]
    have hlength : (dir ++ slash :: safeName fn).length = dir.length + fn.length + 1 := by
      simp [safeName]
      omega
    have hsucc : ((dir.length + 1 : Nat) : Int) = dir.length + 1 := by omega
    have hpred : (dir.length : Int) + 1 - 1 = dir.length := by omega
    have hreqlen : dir.length + 1 + fn.length + 1 = dir.length + fn.length + 2 := by omega
    simp only [buildPath, hdlen, hsucc, hpred, hreqlen]
    show (strcat limit ptr 0 fn).bind _ = _
    by_cases hlimit : dir.length + fn.length + 1 < limit
    · rw [hstrcat, if_pos (by omega), Option.bind_some, hloop, if_pos (by omega), Option.bind_some,
        readText_of_holds hpath hpathNul, hlength, if_pos hlimit, if_pos hlimit, Option.map_some]
    · rw [if_neg hlimit, hstrcat]
      split
      · rw [Option.bind_some, hloop]
        split
        · rw [Option.bind_some, readText_of_holds hpath hpathNul, hlength, if_neg hlimit]
          rfl
        · rfl
      · rfl

/-- strcpy() writes behind the buffer when the length of the directory is cut off. -/
theorem written_of_overlong {limit : Nat} {built : BuiltPath} (hlong : 2 ^ 32 ≤ dir.length + 1)
    (h : buildPath limit heap dir fn = some built) :
    (dir.length : Int) ∈ built.written ∧ built.reqlen ≤ dir.length := by
  simp only [buildPath, strcat, Option.bind_eq_some_iff, Option.map_eq_some_iff] at h
  obtain ⟨cat, ⟨text, -, rfl⟩, buf, hbuf, path, -, rfl⟩ := h
  constructor
  · refine replaceSlashes_grows hbuf _ ?_
    rw [strcpy, mem_written_pokeAll]
    refine .inl (mem_written_poke.mpr (.inl (mem_written_poke.mpr (.inl ?_))))
    rw [strcpy, mem_written_pokeAll]
    refine .inr ⟨by omega, ?_⟩
    simp
  · have hlt : toUnsigned (toUnsigned (dir.length + 1) + fn.length + 1) < 2 ^ 32 :=
      Nat.mod_lt _ (by decide)
    show toUnsigned _ ≤ _
    omega

theorem fits_of_opensInside (hdir : (0 : UInt8) ∉ dir) (hfn : (0 : UInt8) ∉ fn)
    (h : OpensInside heap dir fn) : dir.length + fn.length + 2 < 2 ^ 32 := by
  obtain ⟨⟨limit, built, hbuilt⟩, hinside⟩ := h
  have hbounds := (hinside limit built hbuilt).inBounds
  by_contra hlong
  by_cases hfits : dir.length + 1 < 2 ^ 32
  · obtain ⟨written, hwritten, hpath⟩ := buildPath_of_fits heap hdir hfn hfits
    rw [hpath] at hbuilt
    split at hbuilt
    · cases hbuilt
      have hlast := hbounds (dir.length + fn.length + 1) ((hwritten _).mpr (by omega))
      have hlt : toUnsigned (dir.length + fn.length + 2) < 2 ^ 32 := Nat.mod_lt _ (by decide)
      dsimp only at hlast
      omega
    · cases hbuilt
  · obtain ⟨hmem, hreqlen⟩ := written_of_overlong (by omega) hbuilt
    have := hbounds _ hmem
    omega

end ChaosVpn.HostFilePath
