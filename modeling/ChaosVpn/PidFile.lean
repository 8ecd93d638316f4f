import ChaosVpn.Libc
import ChaosVpn.Library.Runs
import Mathlib.Logic.Function.Basic

/-! pidfile_create_pidfile, called by any number of processes for one file, their system
calls in any order. A process may be killed between any two of them. What is printed gets
into the file when its handle is closed. -/

namespace ChaosVpn.PidFile
open CStrings Libc

/-- The buffer has room for 511 bytes of the name. -/
def lockfile (filename : Bytes) : Bytes := (filename ++ ascii ".lck").take 511

/-- Files by their names, and what is in them. -/
structure Files where
  names : Bytes → Option Nat
  contents : Nat → Bytes
  fresh : Nat

def Files.create (fs : Files) (name : Bytes) : Files where
  names := Function.update fs.names name (some fs.fresh)
  contents := Function.update fs.contents fs.fresh []
  fresh := fs.fresh + 1

/-- open() with O_CREAT and O_EXCL. -/
def openExclusive (fs : Files) (name : Bytes) : Option Files :=
  if (fs.names name).isSome then none else some (fs.create name)

/-- fopen() with "w", and the file that is open then. -/
def fopenWrite (fs : Files) (name : Bytes) : Nat × Files :=
  match fs.names name with
  | some file => (file, { fs with contents := Function.update fs.contents file [] })
  | none => (fs.fresh, fs.create name)

def flush (fs : Files) (file : Nat) (text : Bytes) : Files :=
  { fs with
    contents := Function.update fs.contents file (text ++ (fs.contents file).drop text.length) }

def unlink (fs : Files) (name : Bytes) : Files :=
  { fs with names := Function.update fs.names name none }

def pidText (pid : Nat) : Bytes := decimal pid ++ [lineFeed]

/-- How far a process is with its call. -/
inductive Pc
  | outside
  | locked
  | opened (file : Nat)
  | printed (file : Nat)
  | unprinted (file : Nat)
  | written
  | unlocking (retval : Bool)
  deriving DecidableEq

/-- The next system call and how it ends; a failed fclose() may have written something. -/
inductive Action
  | openLock (possible : Bool)
  | fopen (succeeds : Bool)
  | fprintf (succeeds : Bool)
  | fclose (succeeds : Bool) (written : Nat)
  | chmod (succeeds : Bool)
  | unlinkLock (succeeds : Bool)
  | kill

structure State where
  files : Files
  pc : Nat → Pc

/-- What the call of one process does next, with its result when it returns. -/
def advance (filename : Bytes) (files : Files) (pid : Nat) :
    Pc → Action → Option (Option Bool × Files × Pc)
  | _, .kill => some (none, files, .outside)
  | .outside, .openLock possible =>
    match openExclusive files (lockfile filename), possible with
    | some files, true => some (none, files, .locked)
    | _, _ => some (some false, files, .outside)
  | .locked, .fopen succeeds =>
    if succeeds then
      let (file, files) := fopenWrite files filename
      some (none, files, .opened file)
    else some (none, files, .unlocking false)
  | .opened file, .fprintf succeeds =>
    some (none, files, if succeeds then .printed file else .unprinted file)
  | .printed file, .fclose succeeds written =>
    if succeeds then some (none, flush files file (pidText pid), .written)
    else some (none, flush files file ((pidText pid).take written), .unlocking false)
  | .unprinted file, .fclose _ written =>
    some (none, flush files file ((pidText pid).take written), .unlocking false)
  | .written, .chmod _ => some (none, files, .unlocking true)
  | .unlocking retval, .unlinkLock succeeds =>
    some (some retval, if succeeds then unlink files (lockfile filename) else files, .outside)
  | _, _ => none

def step (filename : Bytes) (s : State) : Nat × Action → Option (Option Bool × State)
  | (pid, action) => (advance filename s.files pid (s.pc pid) action).map fun (out, files, pc) =>
      (out, { files, pc := Function.update s.pc pid pc })

abbrev Call := Runs.Call State (Nat × Action) (Option Bool)

abbrev Run (filename : Bytes) (start : State) : List Call → State → Prop :=
  Runs.Run (step filename) start

/-- No process is in a call, and there is no lock. -/
structure Start (filename : Bytes) (s : State) : Prop where
  outside : ∀ pid, s.pc pid = .outside
  free : s.files.names (lockfile filename) = none

/-- What a process can do. -/
inductive Move (filename : Bytes) (files : Files) (pid : Nat) :
    Pc → Action → Option Bool → Files → Pc → Prop
  | kill (pc : Pc) : Move filename files pid pc .kill none files .outside
  | refused (possible : Bool) :
      (files.names (lockfile filename)).isSome = true ∨ possible = false →
      Move filename files pid .outside (.openLock possible) (some false) files .outside
  | locks : files.names (lockfile filename) = none →
      Move filename files pid .outside (.openLock true) none
        (files.create (lockfile filename)) .locked
  | opens : Move filename files pid .locked (.fopen true) none
      (fopenWrite files filename).2 (.opened (fopenWrite files filename).1)
  | opensNot : Move filename files pid .locked (.fopen false) none files (.unlocking false)
  | prints (file : Nat) :
      Move filename files pid (.opened file) (.fprintf true) none files (.printed file)
  | printsNot (file : Nat) :
      Move filename files pid (.opened file) (.fprintf false) none files (.unprinted file)
  | closes (file written : Nat) : Move filename files pid (.printed file) (.fclose true written)
      none (flush files file (pidText pid)) .written
  | closesNot (file written : Nat) : Move filename files pid (.printed file) (.fclose false written)
      none (flush files file ((pidText pid).take written)) (.unlocking false)
  | discards (file : Nat) (succeeds : Bool) (written : Nat) :
      Move filename files pid (.unprinted file) (.fclose succeeds written) none
        (flush files file ((pidText pid).take written)) (.unlocking false)
  | chmod (succeeds : Bool) :
      Move filename files pid .written (.chmod succeeds) none files (.unlocking true)
  | unlocks (retval : Bool) : Move filename files pid (.unlocking retval) (.unlinkLock true)
      (some retval) (unlink files (lockfile filename)) .outside
  | unlocksNot (retval : Bool) : Move filename files pid (.unlocking retval) (.unlinkLock false)
      (some retval) files .outside

/-! One process at a time -/

def Contains (files : Files) (name text : Bytes) : Prop :=
  ∃ file, files.names name = some file ∧ files.contents file = text

/-- What a process in its call knows of the file. -/
def Progress (filename : Bytes) (files : Files) (pid : Nat) : Pc → Prop
  | .opened file | .printed file | .unprinted file =>
    files.names filename = some file ∧ files.contents file = []
  | .written | .unlocking true => Contains files filename (pidText pid)
  | .outside | .locked | .unlocking false => True

structure Inv (filename : Bytes) (s : State) : Prop where
  alone : ∀ pid pid', s.pc pid ≠ .outside → s.pc pid' ≠ .outside → pid = pid'
  holds : ∀ pid, s.pc pid ≠ .outside → (s.files.names (lockfile filename)).isSome
  progress : ∀ pid, Progress filename s.files pid (s.pc pid)

variable {filename : Bytes} {s s' start : State} {pid : Nat} {action : Action} {out : Option Bool}
  {files : Files} {pc : Pc} {t : List Call}

theorem inv_start (h : Start filename s) : Inv filename s :=
  ⟨fun pid _ hpid => absurd (h.outside pid) hpid, fun pid hpid => absurd (h.outside pid) hpid,
    fun pid => by rw [h.outside pid]; trivial⟩

/-- Where the other processes are outside, a step has to keep what its own process knows. -/
theorem inv_update (halone : ∀ other, other ≠ pid → s.pc other = .outside)
    (hholds : pc ≠ .outside → (files.names (lockfile filename)).isSome)
    (hprogress : Progress filename files pid pc) :
    Inv filename { files, pc := Function.update s.pc pid pc } := by
  have hothers : ∀ other, Function.update s.pc pid pc other ≠ .outside → other = pid := by
    intro other hinside
    by_contra hne
    exact hinside (by rw [Function.update_of_ne hne, halone other hne])
  refine ⟨fun p q hp hq => (hothers p hp).trans (hothers q hq).symm, fun p hp => ?_, fun p => ?_⟩
  · obtain rfl := hothers p hp
    exact hholds (by simpa using hp)
  · by_cases hp : p = pid
    · subst hp
      simpa using hprogress
    · dsimp only
      rw [Function.update_of_ne hp, halone p hp]
      trivial

theorem Inv.others (h : Inv filename s) (hinside : s.pc pid ≠ .outside) :
    ∀ other, other ≠ pid → s.pc other = .outside := fun other hne => by
  by_contra hother
  exact hne (h.alone other pid hother hinside)

theorem fopenWrite_spec (fs : Files) (name : Bytes) :
    (fopenWrite fs name).2.names name = some (fopenWrite fs name).1 ∧
      (fopenWrite fs name).2.contents (fopenWrite fs name).1 = [] ∧
      ∀ other, (fs.names other).isSome → ((fopenWrite fs name).2.names other).isSome := by
  unfold fopenWrite
  cases h : fs.names name with
  | some file => simp [h]
  | none =>
    refine ⟨by simp [Files.create], by simp [Files.create], fun other hother => ?_⟩
    by_cases hname : other = name
    · simp [hname, Files.create]
    · simpa [Files.create, hname] using hother

theorem advance_cases {pc' : Pc} {files' : Files}
    (h : advance filename files pid pc action = some (out, files', pc')) :
    Move filename files pid pc action out files' pc' := by
  cases action with
  | kill =>
    obtain ⟨rfl, rfl, rfl⟩ := by simpa [advance] using h
    exact .kill pc
  | openLock possible =>
    cases pc with
    | outside =>
      cases hlock : files.names (lockfile filename) with
      | some file =>
        obtain ⟨rfl, rfl, rfl⟩ := by simpa [advance, openExclusive, hlock] using h
        exact .refused possible (.inl (by rw [hlock]; rfl))
      | none =>
        cases possible with
        | true =>
          obtain ⟨rfl, rfl, rfl⟩ := by simpa [advance, openExclusive, hlock] using h
          exact .locks hlock
        | false =>
          obtain ⟨rfl, rfl, rfl⟩ := by simpa [advance, openExclusive, hlock] using h
          exact .refused false (.inr rfl)
    | _ => cases h
  | fopen succeeds => cases pc <;> cases succeeds <;> cases h <;> constructor
  | fprintf succeeds => cases pc <;> cases succeeds <;> cases h <;> constructor
  | fclose succeeds written => cases pc <;> cases succeeds <;> cases h <;> constructor
  | chmod succeeds =>
    cases pc <;> cases h
    constructor
  | unlinkLock succeeds => cases pc <;> cases succeeds <;> cases h <;> constructor

theorem step_cases (h : step filename s (pid, action) = some (out, s')) :
    ∃ files pc, Move filename s.files pid (s.pc pid) action out files pc ∧
      s' = { files, pc := Function.update s.pc pid pc } := by
  obtain ⟨⟨out', files, pc⟩, hadvance, heq⟩ := Option.map_eq_some_iff.mp h
  obtain ⟨rfl, rfl⟩ := Prod.mk.inj heq
  exact ⟨files, pc, advance_cases hadvance, rfl⟩

/-- A process that leaves and touches no file. -/
theorem Inv.leave (h : Inv filename s) (pid : Nat) :
    Inv filename { s with pc := Function.update s.pc pid .outside } := by
  have hinside : ∀ p, Function.update s.pc pid .outside p ≠ .outside → s.pc p ≠ .outside := by
    intro p hp
    by_cases heq : p = pid
    · simp [heq] at hp
    · rwa [Function.update_of_ne heq] at hp
  refine ⟨fun p q hp hq => h.alone p q (hinside p hp) (hinside q hq),
    fun p hp => h.holds p (hinside p hp), fun p => ?_⟩
  by_cases heq : p = pid
  · subst heq
    simp [Progress]
  · dsimp only
    rw [Function.update_of_ne heq]
    exact h.progress p

theorem Inv.step (h : Inv filename s) (hstep : step filename s (pid, action) = some (out, s')) :
    Inv filename s' := by
  obtain ⟨files, pc, hmove, rfl⟩ := step_cases hstep
  have hprogress := h.progress pid
  have hholds := h.holds pid
  have hothers := @Inv.others filename s pid h
  generalize s.pc pid = now at hmove hprogress hholds hothers
  cases hmove with
  | kill | refused | unlocksNot => exact h.leave pid
  | locks hfree =>
    refine inv_update (fun other _ => ?_) (fun _ => by simp [Files.create]) trivial
    by_contra hinside
    simpa [hfree] using h.holds other hinside
  | opens =>
    obtain ⟨hname, hempty, hlock⟩ := fopenWrite_spec s.files filename
    exact inv_update (hothers (by simp)) (fun _ => hlock _ (hholds (by simp))) ⟨hname, hempty⟩
  | opensNot => exact inv_update (hothers (by simp)) (fun _ => hholds (by simp)) trivial
  | prints | printsNot | chmod => exact inv_update (hothers (by simp)) (fun _ => hholds (by simp)) hprogress
  | closes file =>
    obtain ⟨hname, hempty⟩ := hprogress
    refine inv_update (hothers (by simp)) (fun _ => hholds (by simp)) ⟨file, hname, ?_⟩
    simp [flush, hempty]
  | closesNot | discards =>
    exact inv_update (hothers (by simp)) (fun _ => hholds (by simp)) trivial
  | unlocks => exact inv_update (hothers (by simp)) (fun hne => absurd rfl hne) trivial

theorem inv_of_run (hstart : Start filename start) (run : Run filename start t s) :
    Inv filename s :=
  run.invariant (fun _ s => Inv filename s) (inv_start hstart)
    fun _ _ _ _ _ _ h hstep => h.step hstep

/-! Locks that nobody holds -/

/-- A process is killed in its call, or cannot remove its lock. -/
def Abandons (c : Call) : Prop :=
  (c.input.2 = .kill ∧ c.pre.pc c.input.1 ≠ .outside) ∨ c.input.2 = .unlinkLock false

/-- The lock is free, held by the one process that is in its call, or left for good. -/
inductive Phase (filename : Bytes) (t : List Call) (s : State) : Prop
  | free (hfree : s.files.names (lockfile filename) = none) (houtside : ∀ pid, s.pc pid = .outside)
      (hnever : ∀ c ∈ t, ¬ Abandons c)
  | held (pid : Nat) (hlock : (s.files.names (lockfile filename)).isSome = true)
      (hinside : s.pc pid ≠ .outside) (hnever : ∀ c ∈ t, ¬ Abandons c)
  | left (hlock : (s.files.names (lockfile filename)).isSome = true)
      (houtside : ∀ pid, s.pc pid = .outside) (habandoned : ∃ c ∈ t, Abandons c)

/-- Outside of its call a process can only take the lock, and only when it is free. -/
theorem Move.of_outside {pc' : Pc} {files' : Files}
    (h : Move filename files pid .outside action out files' pc') :
    (files' = files ∧ pc' = .outside ∧ out ≠ some true ∧ action ≠ .unlinkLock false) ∨
      (files.names (lockfile filename) = none ∧ pc' = .locked ∧ action = .openLock true ∧
        files' = files.create (lockfile filename)) := by
  cases h with
  | kill | refused => exact .inl ⟨rfl, rfl, by simp, by simp⟩
  | locks hfree => exact .inr ⟨hfree, rfl, rfl, rfl⟩

theorem update_outside {pc : Nat → Pc} (h : pc pid = .outside) :
    Function.update pc pid .outside = pc := by
  rw [← h, Function.update_eq_self]

theorem never_snoc {c : Call} (hnever : ∀ c ∈ t, ¬ Abandons c) (hc : ¬ Abandons c) :
    ∀ c' ∈ t ++ [c], ¬ Abandons c' := by
  simpa [or_imp, forall_and] using And.intro hnever hc

/-- In front of a lock, a process outside of its call does nothing. -/
theorem blocked (hlock : (s.files.names (lockfile filename)).isSome = true)
    (houtside : s.pc pid = .outside) (hstep : step filename s (pid, action) = some (out, s')) :
    s' = s ∧ out ≠ some true ∧ ¬ Abandons ⟨s, (pid, action), out, s'⟩ := by
  obtain ⟨files, pc, hmove, rfl⟩ := step_cases hstep
  rw [houtside] at hmove
  rcases hmove.of_outside with ⟨rfl, rfl, hout, haction⟩ | ⟨hfree, -⟩
  · exact ⟨by rw [update_outside houtside], hout, by simp [Abandons, houtside, haction]⟩
  · simp [hfree] at hlock

theorem Phase.step (hinv : Inv filename s) (h : Phase filename t s)
    (hstep : step filename s (pid, action) = some (out, s')) :
    Phase filename (t ++ [⟨s, (pid, action), out, s'⟩]) s' := by
  have hinv' := hinv.step hstep
  cases h with
  | left hlock houtside habandoned =>
    obtain ⟨rfl, -, -⟩ := blocked hlock (houtside pid) hstep
    obtain ⟨c, hc, habandons⟩ := habandoned
    exact .left hlock houtside ⟨c, by simp [hc], habandons⟩
  | free hfree houtside hnever =>
    obtain ⟨files, pc, hmove, rfl⟩ := step_cases hstep
    rw [houtside pid] at hmove
    rcases hmove.of_outside with ⟨rfl, rfl, -, haction⟩ | ⟨-, rfl, rfl, rfl⟩
    · refine .free hfree (by simpa [update_outside (houtside pid)] using houtside) ?_
      exact never_snoc hnever (by simp [Abandons, houtside, haction])
    · refine .held pid (by simp [Files.create]) (by simp) (never_snoc hnever ?_)
      simp [Abandons]
  | held holder hlock hinside hnever =>
    by_cases hpid : pid = holder
    · subst hpid
      obtain ⟨files, pc, hmove, rfl⟩ := step_cases hstep
      have hothers := hinv.others hinside
      have hgone : ∀ other, Function.update s.pc pid .outside other = .outside := by
        intro other
        by_cases heq : other = pid
        · simp [heq]
        · rw [Function.update_of_ne heq, hothers other heq]
      have hstill : ∀ {pc}, pc ≠ .outside → Function.update s.pc pid pc pid ≠ .outside := by simp
      generalize hnow : s.pc pid = now at hmove hinside
      cases hmove with
      | kill => exact .left hlock hgone ⟨_, List.mem_concat_self, .inl ⟨rfl, hnow ▸ hinside⟩⟩
      | refused | locks => exact absurd rfl hinside
      | unlocks => exact .free (by simp [unlink]) hgone (never_snoc hnever (by simp [Abandons]))
      | unlocksNot => exact .left hlock hgone ⟨_, List.mem_concat_self, .inr rfl⟩
      | opens | opensNot | prints | printsNot | closes | closesNot | discards | chmod =>
        refine .held pid (hinv'.holds pid (hstill (by simp))) (hstill (by simp)) ?_
        exact never_snoc hnever (by simp [Abandons])
    · have houtside := hinv.others hinside pid hpid
      obtain ⟨rfl, -, habandons⟩ := blocked hlock houtside hstep
      exact .held holder hlock hinside (never_snoc hnever habandons)

theorem phase_of_run (hstart : Start filename start) (run : Run filename start t s) :
    Phase filename t s := by
  refine run.invariant (Phase filename) (.free hstart.free hstart.outside (by simp)) ?_
  intro t s i out s' run h hstep
  exact h.step (inv_of_run hstart run) hstep

/-! What a call that succeeds leaves -/

theorem lockfile_eq_iff : lockfile filename = filename ↔ filename.length = 511 := by
  constructor
  · intro h
    have hlength := congrArg List.length h
    simp only [lockfile, List.length_take, List.length_append] at hlength
    have hlck : (ascii ".lck").length = 4 := rfl
    omega
  · intro h
    rw [lockfile, ← h, List.take_left]

/-- The pid is in the file, unless its own lock was the file. -/
theorem returned (hinv : Inv filename s)
    (hstep : step filename s (pid, action) = some (some true, s')) :
    Contains s'.files filename (pidText pid) ↔
      filename.length ≠ 511 ∨ action = .unlinkLock false := by
  obtain ⟨files, pc, hmove, rfl⟩ := step_cases hstep
  have hprogress := hinv.progress pid
  generalize s.pc pid = now at hmove hprogress
  cases hmove with
  | unlocksNot => exact iff_of_true hprogress (.inr rfl)
  | unlocks =>
    obtain ⟨file, hname, htext⟩ := hprogress
    have hlength := @lockfile_eq_iff filename
    by_cases hlock : lockfile filename = filename
    · simp [Contains, unlink, hlock, hlength.mp hlock]
    · simp [Contains, unlink, Function.update_of_ne (Ne.symm hlock), hname, htext,
        mt hlength.mpr hlock]

def noFiles : State := ⟨⟨fun _ => none, fun _ => [], 0⟩, fun _ => .outside⟩

def pidName : Bytes := ascii "/run/chaosvpn.pid"

def twoProcesses : List (Nat × Action) :=
  [(7, .openLock true), (8, .openLock true), (7, .fopen true), (7, .fprintf true),
   (7, .fclose true 0), (7, .chmod true), (7, .unlinkLock true)]

end ChaosVpn.PidFile
