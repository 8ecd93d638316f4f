import ChaosVpn.Library.Loops
import Mathlib.Algebra.Group.Int.Defs
import Mathlib.Tactic.Common

/-! The loop of fs_cp_file. It counts down the size that stat() reported, by what write()
returned, and the only test is whether write() returned the same as read(). A failed
read() and the write() of (size_t)-1 bytes behind it return the same. -/

namespace ChaosVpn.FileCopy

def bufferSize : Int := 65536

/-- The two open files: what read() returns, and write() for a number of bytes. -/
structure Descriptors (δ : Type) where
  read : δ → Int × δ
  write : δ → Int → Int × δ

structure CopyState (δ : Type) where
  filesize : Int
  files : δ

/-- The counter is an ssize_t, which must not overflow. -/
inductive CopyEnd
  | returns (retval : Bool)
  | overflow

def copyPass {δ : Type} (fds : Descriptors δ) (s : CopyState δ) :
    CopyState δ ⊕ CopyEnd × δ :=
  if s.filesize > 0 then
    let (readbytes, files) := fds.read s.files
    let (writtenbytes, files) := fds.write files readbytes
    if writtenbytes ≠ readbytes then .inr (.returns false, files)
    else if s.filesize - writtenbytes < 2 ^ 63 then .inl ⟨s.filesize - writtenbytes, files⟩
    else .inr (.overflow, files)
  else .inr (.returns true, s.files)

/-! Files that answer with given results -/

/-- What the calls of read() and write() return one after the other. -/
structure IoResults where
  readbytes : Nat → Int
  writtenbytes : Nat → Int
  read_range : ∀ n, readbytes n = -1 ∨ 0 ≤ readbytes n ∧ readbytes n ≤ bufferSize
  write_failed : ∀ n, readbytes n = -1 → writtenbytes n = -1
  write_range : ∀ n, 0 ≤ readbytes n → -1 ≤ writtenbytes n ∧ writtenbytes n ≤ readbytes n

/-- The files are the number of the next call. -/
def IoResults.descriptors (io : IoResults) : Descriptors Nat where
  read n := (io.readbytes n, n)
  write n _ := (io.writtenbytes n, n + 1)

/-- The loop returns, and false when a read failed or came back empty before the counted
size was used up. -/
def EndsProperly (size : Int64) (io : IoResults) : Prop :=
  ∃ retval n, Loops.Returns (copyPass io.descriptors) ⟨size.toInt, 0⟩ (.returns retval, n) ∧
    ∀ filesize i, Loops.Reaches (copyPass io.descriptors) ⟨size.toInt, 0⟩ ⟨filesize, i⟩ →
      0 < filesize → io.readbytes i ≤ 0 → retval = false

/-- What is left of a size after some reads. -/
def left (size : Int) (readbytes : Nat → Int) : Nat → Int
  | 0 => size
  | n + 1 => left size readbytes n - readbytes n

/-- The results keep the loop going up to a call. -/
structure Arrives (size : Int) (io : IoResults) (n : Nat) : Prop where
  remains : ∀ j ≤ n, 0 < left size io.readbytes j ∧ left size io.readbytes j < 2 ^ 63
  agree : ∀ j < n, io.writtenbytes j = io.readbytes j

/-- A read that fails or comes back empty is followed by a write that returns something
else than its read, before the size is used up. -/
def Noticed (size : Int) (io : IoResults) : Prop :=
  ∀ i, Arrives size io i → io.readbytes i ≤ 0 →
    ∃ n, i ≤ n ∧ Arrives size io n ∧ io.writtenbytes n ≠ io.readbytes n

variable {size : Int} {io : IoResults} {filesize : Int} {n : Nat}

/-- What one pass can do. -/
theorem copyPass_cases (io : IoResults) (filesize : Int) (n : Nat) :
    (filesize ≤ 0 ∧ copyPass io.descriptors ⟨filesize, n⟩ = .inr (.returns true, n)) ∨
    (0 < filesize ∧ io.writtenbytes n ≠ io.readbytes n ∧
      copyPass io.descriptors ⟨filesize, n⟩ = .inr (.returns false, n + 1)) ∨
    (0 < filesize ∧ io.writtenbytes n = io.readbytes n ∧ filesize - io.readbytes n < 2 ^ 63 ∧
      copyPass io.descriptors ⟨filesize, n⟩ = .inl ⟨filesize - io.readbytes n, n + 1⟩) ∨
    (0 < filesize ∧ io.writtenbytes n = io.readbytes n ∧ 2 ^ 63 ≤ filesize - io.readbytes n ∧
      copyPass io.descriptors ⟨filesize, n⟩ = .inr (.overflow, n + 1)) := by
  by_cases hpos : 0 < filesize
  · by_cases hagree : io.writtenbytes n = io.readbytes n
    · by_cases hfits : filesize - io.readbytes n < 2 ^ 63
      · refine .inr (.inr (.inl ⟨hpos, hagree, hfits, ?_⟩))
        simp [copyPass, IoResults.descriptors, hpos, hagree]
        omega
      · refine .inr (.inr (.inr ⟨hpos, hagree, by omega, ?_⟩))
        simp [copyPass, IoResults.descriptors, hpos, hagree]
        omega
    · exact .inr (.inl ⟨hpos, hagree, by simp [copyPass, IoResults.descriptors, hpos, hagree]⟩)
  · exact .inl ⟨by omega, by simp [copyPass, hpos]⟩

theorem copyPass_round {s : CopyState Nat}
    (h : copyPass io.descriptors ⟨filesize, n⟩ = .inl s) :
    0 < filesize ∧ io.writtenbytes n = io.readbytes n ∧ filesize - io.readbytes n < 2 ^ 63 ∧
      s = ⟨filesize - io.readbytes n, n + 1⟩ := by
  rcases copyPass_cases io filesize n with ⟨-, hp⟩ | ⟨-, -, hp⟩ | ⟨hpos, hagree, hfits, hp⟩ |
    ⟨-, -, -, hp⟩
  · cases hp.symm.trans h
  · cases hp.symm.trans h
  · exact ⟨hpos, hagree, hfits, (Sum.inl.inj (hp.symm.trans h)).symm⟩
  · cases hp.symm.trans h

theorem copyPass_short {m : Nat}
    (h : copyPass io.descriptors ⟨filesize, n⟩ = .inr (.returns false, m)) :
    0 < filesize ∧ io.writtenbytes n ≠ io.readbytes n := by
  rcases copyPass_cases io filesize n with ⟨-, hp⟩ | ⟨hpos, hshort, -⟩ | ⟨-, -, -, hp⟩ |
    ⟨-, -, -, hp⟩
  · cases hp.symm.trans h
  · exact ⟨hpos, hshort⟩
  · cases hp.symm.trans h
  · cases hp.symm.trans h

theorem copyPass_overflow {m : Nat}
    (h : copyPass io.descriptors ⟨filesize, n⟩ = .inr (.overflow, m)) :
    0 < filesize ∧ 2 ^ 63 ≤ filesize - io.readbytes n := by
  rcases copyPass_cases io filesize n with ⟨-, hp⟩ | ⟨-, -, hp⟩ | ⟨-, -, -, hp⟩ |
    ⟨hpos, -, hover, -⟩
  · cases hp.symm.trans h
  · cases hp.symm.trans h
  · cases hp.symm.trans h
  · exact ⟨hpos, hover⟩

theorem Arrives.reaches (h : Arrives size io n) :
    Loops.Reaches (copyPass io.descriptors) ⟨size, 0⟩ ⟨left size io.readbytes n, n⟩ := by
  induction n with
  | zero => exact .refl
  | succ n ih =>
    have hprev : Arrives size io n :=
      ⟨fun j hj => h.remains j (by omega), fun j hj => h.agree j (by omega)⟩
    have hpos := (h.remains n (by omega)).1
    have hfits := (h.remains (n + 1) (by omega)).2
    have hagree := h.agree n (by omega)
    rw [left] at hfits
    refine .round (ih hprev) ?_
    simp [copyPass, IoResults.descriptors, hpos, hagree, left]
    omega

/-- How the loop came to a state. -/
theorem reaches_left (hsize : size < 2 ^ 63)
    (h : Loops.Reaches (copyPass io.descriptors) ⟨size, 0⟩ ⟨filesize, n⟩) :
    filesize = left size io.readbytes n ∧ filesize < 2 ^ 63 ∧
      (0 < filesize → Arrives size io n) := by
  generalize hs : (⟨filesize, n⟩ : CopyState Nat) = s at h
  induction h generalizing filesize n with
  | refl =>
    cases hs
    refine ⟨rfl, hsize, fun hpos => ⟨fun j hj => ?_, fun j hj => by omega⟩⟩
    obtain rfl : j = 0 := by omega
    exact ⟨hpos, hsize⟩
  | @round t t' hreach hround ih =>
    obtain ⟨before, m⟩ := t
    obtain ⟨hbefore, -, harrives⟩ := ih rfl
    obtain ⟨hpos, hagree, hfits, rfl⟩ := copyPass_round hround
    cases hs
    have hleft : before - io.readbytes m = left size io.readbytes (m + 1) := by rw [left, hbefore]
    refine ⟨hleft, hfits, fun hnext => ⟨fun j hj => ?_, fun j hj => ?_⟩⟩
    · by_cases hlast : j = m + 1
      · rw [hlast, ← hleft]
        exact ⟨hnext, hfits⟩
      · exact (harrives hpos).remains j (by omega)
    · by_cases hlast : j = m
      · rw [hlast, hagree]
      · exact (harrives hpos).agree j (by omega)

theorem returns_false (h : Arrives size io n) (hshort : io.writtenbytes n ≠ io.readbytes n) :
    Loops.Returns (copyPass io.descriptors) ⟨size, 0⟩ (.returns false, n + 1) := by
  refine Loops.returns_iff_reaches.mpr ⟨_, h.reaches, ?_⟩
  have hpos := (h.remains n (Nat.le_refl n)).1
  simp [copyPass, IoResults.descriptors, hpos, hshort]

/-- Where every read brings something the counter falls with every pass. -/
theorem returns_of_reads (hsize : size < 2 ^ 63)
    (hreads : ∀ i, Arrives size io i → 0 < io.readbytes i) :
    ∃ retval m, Loops.Returns (copyPass io.descriptors) ⟨size, 0⟩ (.returns retval, m) := by
  obtain ⟨⟨ending, m⟩, hreturns⟩ :
      Loops.Terminates (copyPass io.descriptors) ⟨size, 0⟩ := by
    refine Loops.terminates_of_measure (fun s => s.filesize.toNat)
      (Loops.Reaches (copyPass io.descriptors) ⟨size, 0⟩) ?_ .refl
    rintro ⟨filesize, n⟩ s' hreach hround
    obtain ⟨hpos, -, -, rfl⟩ := copyPass_round hround
    have hread := hreads n ((reaches_left hsize hreach).2.2 hpos)
    exact ⟨.round hreach hround, by dsimp only; omega⟩
  cases ending with
  | returns retval => exact ⟨retval, m, hreturns⟩
  | overflow =>
    obtain ⟨⟨filesize, n⟩, hreach, hpass⟩ := Loops.returns_iff_reaches.mp hreturns
    obtain ⟨hpos, hover⟩ := copyPass_overflow hpass
    obtain ⟨-, hfits, harrives⟩ := reaches_left hsize hreach
    have hread := hreads n (harrives hpos)
    omega

theorem noticed_of_endsProperly {size : Int64} (h : EndsProperly size io) :
    Noticed size.toInt io := by
  obtain ⟨retval, m, hreturns, hfalse⟩ := h
  intro i hi hread
  have hpos := (hi.remains i (Nat.le_refl i)).1
  obtain rfl := hfalse _ i hi.reaches hpos hread
  obtain ⟨⟨filesize, n⟩, hreach, hpass⟩ := Loops.returns_iff_reaches.mp hreturns
  obtain ⟨hfilesize, hshort⟩ := copyPass_short hpass
  refine ⟨n, ?_, (reaches_left size.toInt_lt hreach).2.2 hfilesize, hshort⟩
  by_contra hearlier
  exact hshort (hi.agree n (by omega))

theorem endsProperly_of_noticed {size : Int64} (h : Noticed size.toInt io) :
    EndsProperly size io := by
  by_cases hbad : ∃ i, Arrives size.toInt io i ∧ io.readbytes i ≤ 0
  · obtain ⟨i, hi, hread⟩ := hbad
    obtain ⟨n, -, hn, hshort⟩ := h i hi hread
    exact ⟨false, n + 1, returns_false hn hshort, fun _ _ _ _ _ => rfl⟩
  · have hgood : ∀ i, Arrives size.toInt io i → 0 < io.readbytes i := by
      intro i hi
      by_contra hread
      exact hbad ⟨i, hi, by omega⟩
    obtain ⟨retval, m, hreturns⟩ := returns_of_reads size.toInt_lt hgood
    refine ⟨retval, m, hreturns, fun filesize i hreach hpos hread => ?_⟩
    have := hgood i ((reaches_left size.toInt_lt hreach).2.2 hpos)
    omega

/-- The copy loop ends as it should exactly when a later write gives the bad read away. -/
theorem endsProperly_iff (size : Int64) (io : IoResults) :
    EndsProperly size io ↔ Noticed size.toInt io :=
  ⟨noticed_of_endsProperly, endsProperly_of_noticed⟩

/-- A file that cannot be read, for example because the disk is broken. -/
def unreadable : IoResults where
  readbytes _ := -1
  writtenbytes _ := -1
  read_range _ := .inl rfl
  write_failed _ _ := rfl
  write_range _ h := absurd h (by decide)

theorem unreadable_runs_on : ¬ EndsProperly 1 unreadable := by
  intro h
  have hfirst : Arrives (1 : Int64).toInt unreadable 0 := by
    refine ⟨fun j hj => ?_, fun j hj => by omega⟩
    obtain rfl : j = 0 := by omega
    decide
  obtain ⟨n, -, -, hshort⟩ := noticed_of_endsProperly h 0 hfirst (by decide)
  exact hshort rfl

end ChaosVpn.FileCopy
