import ChaosVpn.Library.Runs
import ChaosVpn.OldDaemon

/-! The worker of fire_up_tincd_handler, which starts, stops and restarts tincd, with the
signal handlers sigchild and sigterm that may run between any two of its operations. -/

namespace ChaosVpn.Worker
open Runs OldDaemon

inductive Life
  | running
  | ended (fatal : Bool)
  deriving DecidableEq

/-- A process that has not been waited for. Those of daemon_start are tincds, the others
are run by system() and popen(). -/
structure Child where
  pid : Nat
  tincd : Bool
  life : Life
  deriving DecidableEq

/-- What an activation still has to do, one entry for each point at which a signal handler
may start. -/
inductive Op
  | tincGetPid
  | pclose (pid : Nat)
  | killOld (sig : Signal)
  | sleep
  | pipe
  | fork
  | setPid (pid : Nat)
  | exitIfOneshot
  | daemonStop
  | terminate (pgid : Nat)
  | kill (pgid : Nat)
  | tincInvokeIfdown
  | system (pid : Nat)
  | ignoreChild
  | waitpid
  | restart (fatal : Bool)
  | exit (code : Nat)
  deriving DecidableEq

inductive Routine
  | loop
  | sigchild
  | sigterm
  | sigint
  deriving DecidableEq

structure Activation where
  routine : Routine
  ops : List Op
  deriving DecidableEq

inductive Event
  | forked (pid : Nat)
  | reaped (pid : Nat)
  | script
  | kill (pid : Nat) (sig : Signal)
  | killOld (sig : Signal)
  deriving DecidableEq

/-- What the calls of the system return. -/
inductive Answer
  | done
  | failed
  | pid (pid : Nat)
  deriving DecidableEq

structure Setup where
  oneshot : Bool
  runIfdown : Bool
  tincdRestartDelay : Nat

/-- The variables and processes that all activations share. -/
structure Context where
  children : List Child
  diPid : Option Nat
  pending : Bool
  ignored : Bool
  exited : Bool
  deriving DecidableEq

/-- The commands come in this order. -/
inductive Phase
  | fresh
  | signalled
  | started
  | stopped
  deriving DecidableEq

/-- The stack has the running activation in front and the loop at its end. -/
structure State extends Context where
  phase : Phase
  stack : List Activation
  deriving DecidableEq

def startState : State where
  children := []
  diPid := none
  pending := false
  ignored := false
  exited := false
  phase := .fresh
  stack := [⟨.loop, []⟩]

def Context.fresh (ctx : Context) (pid : Nat) : Bool := ctx.children.all fun c => c.pid != pid

def Context.runs (ctx : Context) (pid : Nat) : Bool :=
  ctx.children.any fun c => c.pid == pid && c.life == .running

def Context.fork (ctx : Context) (pid : Nat) (tincd : Bool) : Context :=
  { ctx with children := ctx.children ++ [⟨pid, tincd, .running⟩] }

def Context.reap (ctx : Context) (pid : Nat) : Context :=
  { ctx with children := ctx.children.filter fun c => c.pid != pid }

/-- A SIGCHLD that is pending may be cleared where a blocked signal's child is waited for. -/
def Context.clear (ctx : Context) : Context :=
  { ctx with pending := ctx.pending && ctx.children.any fun c => c.life != .running }

def daemonStart : List Op := [.pipe]

def sigtermOps : List Op := [.ignoreChild, .daemonStop, .exit 1]

def killOldTincd : List Op := [.killOld .sigterm, .sleep, .killOld .sigkill]

/-- An operation with the answer of the system: what happens, what is left behind, and the
operations that take its place. -/
def perform (setup : Setup) (ctx : Context) : Op → Answer → Option (List Event × Context × List Op)
  | .tincGetPid, .pid pid =>
    if ctx.fresh pid then some ([], ctx.fork pid false, [.pclose pid]) else none
  | .tincGetPid, .done => some ([], ctx, killOldTincd)
  | .tincGetPid, .failed => some ([], ctx, [])
  | .pclose pid, answer =>
    if ctx.runs pid then none
    else some ([], ctx.reap pid, if answer = .done then killOldTincd else [])
  | .killOld sig, _ => some ([.killOld sig], ctx, [])
  | .sleep, _ => some ([], ctx, [])
  | .pipe, .done => some ([], ctx, [.fork])
  | .pipe, _ => some ([], ctx, [.exit 1])
  | .fork, .pid pid =>
    if ctx.fresh pid then some ([.forked pid], ctx.fork pid true, [.setPid pid]) else none
  | .fork, _ => some ([], ctx, [.exit 1])
  | .setPid pid, _ => some ([], { ctx with diPid := some pid }, [])
  | .exitIfOneshot, _ => some ([], ctx, if setup.oneshot then [.exit 0] else [])
  | .daemonStop, _ =>
    match ctx.diPid with
    | none => some ([], ctx, [])
    | some pgid => some ([], ctx, [.terminate pgid])
  | .terminate pgid, answer =>
    some ([.kill pgid .sigterm], ctx, if answer = .failed then [] else [.sleep, .kill pgid])
  | .kill pgid, _ => some ([.kill pgid .sigkill], ctx, [])
  | .tincInvokeIfdown, .pid pid =>
    if setup.runIfdown && ctx.fresh pid then some ([.script], ctx.fork pid false, [.system pid])
    else none
  | .tincInvokeIfdown, _ => some ([], ctx, [])
  | .system pid, answer =>
    if ctx.runs pid then none
    else some ([], if answer = .done then ctx.reap pid else (ctx.reap pid).clear, [])
  | .ignoreChild, _ => some ([], { ctx with ignored := true, pending := false }, [])
  | .waitpid, .pid pid =>
    match ctx.children.find? fun c => c.pid == pid with
    | some ⟨_, _, .ended fatal⟩ =>
      some ([.reaped pid], ctx.reap pid,
        if ctx.diPid = some pid then [.tincInvokeIfdown, .restart fatal] else [])
    | _ => none
  | .waitpid, _ => if ctx.children.isEmpty then some ([], ctx, []) else none
  | .restart fatal, _ =>
    some ([], ctx, if fatal then [.exit 1]
      else (if setup.tincdRestartDelay ≠ 0 then [.sleep] else []) ++ daemonStart)
  | .exit _, _ => some ([], { ctx with exited := true }, [])

inductive Command
  | signalOldTincd
  | startTincd
  | restartTincd
  | stop
  | readFailed
  deriving DecidableEq

/-- The phase behind a command, where the parent can send it. -/
def Phase.next : Phase → Command → Option Phase
  | .fresh, .signalOldTincd => some .signalled
  | .signalled, .startTincd => some .started
  | .started, .restartTincd => some .started
  | .started, .stop => some .stopped
  | _, .readFailed => some .stopped
  | _, _ => none

def commandOps : Command → List Op
  | .signalOldTincd => [.tincGetPid]
  | .startTincd => daemonStart ++ [.exitIfOneshot]
  | .restartTincd => [.daemonStop, .tincInvokeIfdown]
  | .stop => [.ignoreChild, .tincInvokeIfdown, .daemonStop, .exit 0]
  | .readFailed => sigtermOps

inductive Act
  | command (c : Command)
  | run (answer : Answer)
  | exits (pid : Nat) (fatal : Bool)
  | notify
  | deliverSigchld
  | deliver (r : Routine)
  deriving DecidableEq

def Activation.inSystem (a : Activation) : Bool :=
  match a.ops with
  | .system _ :: _ => true
  | _ => false

def inSystem (stack : List Activation) : Bool := stack.any Activation.inSystem

def active (stack : List Activation) (r : Routine) : Bool := stack.any fun a => a.routine == r

/-- SIGCHLD is blocked in its handler and in system(). -/
def blocked (stack : List Activation) : Bool := active stack .sigchild || inSystem stack

/-- A child that ends while SIGCHLD is ignored leaves nothing to wait for. -/
def Context.childExits (ctx : Context) (pid : Nat) (fatal : Bool) : Context :=
  if ctx.ignored then ctx.reap pid
  else
    { ctx with
      children := ctx.children.map fun c =>
        if c.pid = pid then { c with life := .ended fatal } else c
      pending := true }

def runTop (setup : Setup) (st : State) (answer : Answer) : Option (List Event × State) :=
  match st.stack with
  | ⟨routine, op :: rest⟩ :: below =>
    (perform setup st.toContext op answer).map fun (events, ctx, ops) =>
      (events, { toContext := ctx, phase := st.phase, stack := ⟨routine, ops ++ rest⟩ :: below })
  | ⟨routine, []⟩ :: below =>
    if routine = .loop then none else some ([], { st with stack := below })
  | [] => none

def step (setup : Setup) (st : State) (act : Act) : Option (List Event × State) :=
  if st.exited then none
  else
    match act with
    | .command c =>
      if st.stack = [⟨.loop, []⟩] then
        (st.phase.next c).map fun phase =>
          ([], { st with phase, stack := [⟨.loop, commandOps c⟩] })
      else none
    | .run answer => runTop setup st answer
    | .exits pid fatal =>
      if st.runs pid then some ([], { st with toContext := st.toContext.childExits pid fatal })
      else none
    | .notify => some ([], { st with pending := !st.ignored })
    | .deliverSigchld =>
      if st.pending && !st.ignored && !blocked st.stack then
        some ([], { st with pending := false, stack := ⟨.sigchild, [.waitpid]⟩ :: st.stack })
      else none
    | .deliver r =>
      if active st.stack r || (r == .sigint && inSystem st.stack) then none
      else
        match r with
        | .sigterm | .sigint => some ([], { st with stack := ⟨r, sigtermOps⟩ :: st.stack })
        | _ => none

/-- The operation that the running activation performs next. -/
def topOp (st : State) : Option Op := st.stack.head?.bind fun a => a.ops.head?

abbrev Call := Runs.Call State Act (List Event)

abbrev Run (setup : Setup) : List Call → State → Prop := Runs.Run (step setup) startState

def executed (setup : Setup) (acts : List Act) : List Call × State :=
  (execute (step setup) startState acts).getD ([], startState)

theorem executed_run {setup : Setup} {acts : List Act}
    (h : (execute (step setup) startState acts).isSome = true) :
    Run setup (executed setup acts).1 (executed setup acts).2 := by
  obtain ⟨⟨t, st⟩, heq⟩ := Option.isSome_iff_exists.mp h
  rw [executed, heq]
  exact run_of_execute heq

def sampleSetup : Setup := ⟨false, true, 20⟩

/-- The tincd 100 runs. -/
def sampleStart : List Act :=
  [.command .signalOldTincd, .run .failed, .command .startTincd, .run .done, .run (.pid 100),
   .run .done, .run .done]

/-- It is told to restart, ends during the sleep of daemon_stop, and tincd 102 takes its
place before daemon_stop goes on. -/
def sampleRestart : List Act :=
  sampleStart ++
  [.command .restartTincd, .run .done, .run .done, .exits 100 false, .deliverSigchld,
   .run (.pid 100), .run (.pid 101), .exits 101 false, .run .failed, .run .done, .run .done,
   .run .done, .run (.pid 102), .run .done, .run .done, .run .done, .run .failed]

/-! What an operation and a step can do -/

inductive Effect (setup : Setup) (ctx : Context) :
    Op → List Event → Context → List Op → Prop
  | pidCommand {pid : Nat} : ctx.fresh pid = true →
      Effect setup ctx .tincGetPid [] (ctx.fork pid false) [.pclose pid]
  | pidKnown : Effect setup ctx .tincGetPid [] ctx killOldTincd
  | pidUnknown : Effect setup ctx .tincGetPid [] ctx []
  | pclose {pid : Nat} {ops : List Op} : ctx.runs pid = false → ops = killOldTincd ∨ ops = [] →
      Effect setup ctx (.pclose pid) [] (ctx.reap pid) ops
  | killOld {sig : Signal} : Effect setup ctx (.killOld sig) [.killOld sig] ctx []
  | sleep : Effect setup ctx .sleep [] ctx []
  | pipe : Effect setup ctx .pipe [] ctx [.fork]
  | failed {op : Op} : op = .pipe ∨ op = .fork → Effect setup ctx op [] ctx [.exit 1]
  | fork {pid : Nat} : ctx.fresh pid = true →
      Effect setup ctx .fork [.forked pid] (ctx.fork pid true) [.setPid pid]
  | setPid {pid : Nat} : Effect setup ctx (.setPid pid) [] { ctx with diPid := some pid } []
  | exitIfOneshot {ops : List Op} : ops = [.exit 0] ∨ ops = [] →
      Effect setup ctx .exitIfOneshot [] ctx ops
  | noDaemon : ctx.diPid = none → Effect setup ctx .daemonStop [] ctx []
  | daemonStop {pgid : Nat} : ctx.diPid = some pgid →
      Effect setup ctx .daemonStop [] ctx [.terminate pgid]
  | terminate {pgid : Nat} {ops : List Op} : ops = [] ∨ ops = [.sleep, .kill pgid] →
      Effect setup ctx (.terminate pgid) [.kill pgid .sigterm] ctx ops
  | kill {pgid : Nat} : Effect setup ctx (.kill pgid) [.kill pgid .sigkill] ctx []
  | script {pid : Nat} : setup.runIfdown = true → ctx.fresh pid = true →
      Effect setup ctx .tincInvokeIfdown [.script] (ctx.fork pid false) [.system pid]
  | noScript : Effect setup ctx .tincInvokeIfdown [] ctx []
  | system {pid : Nat} {left : Context} : ctx.runs pid = false →
      left = ctx.reap pid ∨ left = (ctx.reap pid).clear → Effect setup ctx (.system pid) [] left []
  | ignoreChild : Effect setup ctx .ignoreChild [] { ctx with ignored := true, pending := false } []
  | reaped {child : Child} {fatal : Bool} : child ∈ ctx.children → child.life = .ended fatal →
      ctx.diPid = some child.pid →
      Effect setup ctx .waitpid [.reaped child.pid] (ctx.reap child.pid)
        [.tincInvokeIfdown, .restart fatal]
  | unknown {child : Child} {fatal : Bool} : child ∈ ctx.children → child.life = .ended fatal →
      ctx.diPid ≠ some child.pid →
      Effect setup ctx .waitpid [.reaped child.pid] (ctx.reap child.pid) []
  | noChild : ctx.children = [] → Effect setup ctx .waitpid [] ctx []
  | fatal : Effect setup ctx (.restart true) [] ctx [.exit 1]
  | restart {ops : List Op} : ops = .sleep :: daemonStart ∨ ops = daemonStart →
      Effect setup ctx (.restart false) [] ctx ops
  | exit {code : Nat} : Effect setup ctx (.exit code) [] { ctx with exited := true } []

variable {setup : Setup} {ctx ctx' : Context} {op : Op} {answer : Answer} {events : List Event}
  {ops : List Op} {st st' : State} {act : Act}

theorem ite_or {α : Type} (c : Prop) [Decidable c] (a b : α) :
    (if c then a else b) = a ∨ (if c then a else b) = b := by
  split
  · exact .inl rfl
  · exact .inr rfl

theorem perform_effect (h : perform setup ctx op answer = some (events, ctx', ops)) :
    Effect setup ctx op events ctx' ops := by
  cases op with
  | tincGetPid =>
    cases answer with
    | done => cases h; exact .pidKnown
    | failed => cases h; exact .pidUnknown
    | pid pid =>
      simp only [perform] at h
      split at h
      · rename_i hfresh
        cases h
        exact .pidCommand hfresh
      · cases h
  | pclose pid =>
    simp only [perform] at h
    split at h
    · cases h
    · rename_i hruns
      cases h
      exact .pclose (Bool.eq_false_iff.mpr hruns) (ite_or _ _ _)
  | killOld sig => cases h; exact .killOld
  | sleep => cases h; exact .sleep
  | pipe =>
    cases answer with
    | done => cases h; exact .pipe
    | failed | pid => cases h; exact .failed (.inl rfl)
  | fork =>
    cases answer with
    | done | failed => cases h; exact .failed (.inr rfl)
    | pid pid =>
      simp only [perform] at h
      split at h
      · rename_i hfresh
        cases h
        exact .fork hfresh
      · cases h
  | setPid pid => cases h; exact .setPid
  | exitIfOneshot => cases h; exact .exitIfOneshot (ite_or _ _ _)
  | daemonStop =>
    simp only [perform] at h
    split at h
    · rename_i hpid
      cases h
      exact .noDaemon hpid
    · rename_i hpid
      cases h
      exact .daemonStop hpid
  | terminate pgid => cases h; exact .terminate (ite_or _ _ _)
  | kill pgid => cases h; exact .kill
  | tincInvokeIfdown =>
    cases answer with
    | done | failed => cases h; exact .noScript
    | pid pid =>
      simp only [perform] at h
      split at h
      · rename_i hscript
        obtain ⟨hifdown, hfresh⟩ := Bool.and_eq_true_iff.mp hscript
        cases h
        exact .script hifdown hfresh
      · cases h
  | system pid =>
    simp only [perform] at h
    split at h
    · cases h
    · rename_i hruns
      cases h
      exact .system (Bool.eq_false_iff.mpr hruns) (ite_or _ _ _)
  | ignoreChild => cases h; exact .ignoreChild
  | waitpid =>
    have hnone : (if ctx.children.isEmpty then some ([], ctx, []) else none) =
        some (events, ctx', ops) → Effect setup ctx .waitpid events ctx' ops := by
      intro h
      split at h
      · rename_i hempty
        cases h
        exact .noChild (List.isEmpty_iff.mp hempty)
      · cases h
    cases answer with
    | done | failed => exact hnone h
    | pid pid =>
      simp only [perform] at h
      split at h
      · rename_i p tincd fatal hfind
        have hmem := List.mem_of_find?_eq_some hfind
        obtain rfl : p = pid := by simpa using List.find?_some hfind
        cases h
        split
        · exact .reaped hmem rfl ‹_›
        · exact .unknown hmem rfl ‹_›
      · cases h
  | restart fatal =>
    cases h
    cases fatal with
    | true => exact .fatal
    | false =>
      refine .restart ?_
      by_cases hdelay : setup.tincdRestartDelay ≠ 0 <;> simp [hdelay]
  | exit code => cases h; exact .exit

inductive Step (setup : Setup) (st : State) : Act → List Event → State → Prop
  | command {c : Command} {phase : Phase} : st.stack = [⟨.loop, []⟩] →
      st.phase.next c = some phase →
      Step setup st (.command c) [] { st with phase, stack := [⟨.loop, commandOps c⟩] }
  | run {answer : Answer} {routine : Routine} {op : Op} {rest ops : List Op}
      {below : List Activation} {events : List Event} {ctx : Context} :
      st.stack = ⟨routine, op :: rest⟩ :: below →
      Effect setup st.toContext op events ctx ops →
      Step setup st (.run answer) events ⟨ctx, st.phase, ⟨routine, ops ++ rest⟩ :: below⟩
  | leave {answer : Answer} {routine : Routine} {below : List Activation} :
      st.stack = ⟨routine, []⟩ :: below → routine ≠ .loop →
      Step setup st (.run answer) [] { st with stack := below }
  | exits {pid : Nat} {fatal : Bool} : st.runs pid = true →
      Step setup st (.exits pid fatal) [] { st with toContext := st.toContext.childExits pid fatal }
  | notify : Step setup st .notify [] { st with pending := !st.ignored }
  | sigchld : st.pending = true → st.ignored = false → blocked st.stack = false →
      Step setup st .deliverSigchld []
        { st with pending := false, stack := ⟨.sigchild, [.waitpid]⟩ :: st.stack }
  | deliver {r : Routine} : r = .sigterm ∨ r = .sigint → active st.stack r = false →
      Step setup st (.deliver r) [] { st with stack := ⟨r, sigtermOps⟩ :: st.stack }

theorem step_cases (h : step setup st act = some (events, st')) :
    st.exited = false ∧ Step setup st act events st' := by
  unfold step at h
  split at h
  · cases h
  · rename_i hexited
    refine ⟨Bool.eq_false_iff.mpr hexited, ?_⟩
    cases act with
    | command c =>
      simp only at h
      split at h
      · rename_i hstack
        obtain ⟨phase, hphase, heq⟩ := Option.map_eq_some_iff.mp h
        cases heq
        exact .command hstack hphase
      · cases h
    | run answer =>
      simp only [runTop] at h
      split at h
      · rename_i hstack
        obtain ⟨⟨events, ctx, ops⟩, hperform, heq⟩ := Option.map_eq_some_iff.mp h
        cases heq
        exact .run hstack (perform_effect hperform)
      · rename_i hstack
        split at h
        · cases h
        · rename_i hroutine
          cases h
          exact .leave hstack hroutine
      · cases h
    | exits pid fatal =>
      simp only at h
      split at h
      · rename_i hruns
        cases h
        exact .exits hruns
      · cases h
    | notify => cases h; exact .notify
    | deliverSigchld =>
      simp only at h
      split at h
      · rename_i hguard
        simp only [Bool.and_eq_true, Bool.not_eq_true'] at hguard
        cases h
        exact .sigchld hguard.1.1 hguard.1.2 hguard.2
      · cases h
    | deliver r =>
      simp only at h
      split at h
      · cases h
      · rename_i hguard
        have hactive : active st.stack r = false := by
          cases hr : active st.stack r with
          | false => rfl
          | true => simp [hr] at hguard
        split at h
        · cases h
          exact .deliver (.inl rfl) hactive
        · cases h
          exact .deliver (.inr rfl) hactive
        · cases h

end ChaosVpn.Worker
