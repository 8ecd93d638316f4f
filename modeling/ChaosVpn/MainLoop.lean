import ChaosVpn.FetchAndApply
import ChaosVpn.Worker

/-! main() of the parent from its first download on, with the handlers of its signals and
the commands that it writes to the worker. A handler may run between any two steps, also
while main_fetch_and_apply_config, sleep() or write() is on the way. -/

namespace ChaosVpn.MainLoop
open Libc Settings FetchAndApply Worker

structure Setup where
  libc : CLibrary
  config : Config
  oneshot : Bool
  updateInterval : Nat

/-- What main() does next. The first download and the first main_updated come before
tincd is started. -/
inductive Pc
  | fetch (first : Bool)
  | fetching (first : Bool)
  | updated (first : Bool)
  | write (c : Command)
  | sleep
  | testSighup
  | resetSighup
  | testTime
  | testSigterm
  | testSigint
  | whileSigterm
  | whileSigint
  | reaping
  | returned
  | exited
  deriving DecidableEq

structure Parent where
  pc : Pc
  rSigterm : Bool
  rSigint : Bool
  rSighup : Bool
  nextupdate : Int
  client : Client

/-- The parent when its handlers are set, with what `tmpconffile` then holds. -/
def startParent (tmpconf : Option CStrings.Bytes) : Parent where
  pc := .fetch true
  rSigterm := false
  rSigint := false
  rSighup := false
  nextupdate := 0
  client := startClient tmpconf

inductive Event
  | fetch
  | fetched (report : Report)
  | slept
  | wrote (c : Command)

/-- What the calls of the system return, and what main_fetch_and_apply_config meets. -/
inductive Answer
  | done
  | failed
  | time (now : Int)
  | env (e : Env)

inductive Act
  | run (answer : Answer)
  | sigint
  | sigterm
  | sighup
  | sigchild

def mainUpdated (setup : Setup) (p : Parent) (now : Int) : Parent :=
  { p with nextupdate := now + setup.updateInterval }

/-- Behind handler_signal_old_tincd, handler_start_tincd, handler_restart_tincd and
handler_stop. -/
def afterWrite (setup : Setup) : Command → Pc
  | .signalOldTincd => .write .startTincd
  | .startTincd => if setup.oneshot then .returned else .updated false
  | .restartTincd => .whileSigterm
  | _ => .returned

/-- The switch over the result of main_fetch_and_apply_config. -/
def afterFetch (retval : Int) : Pc :=
  if retval = -1 then .whileSigterm
  else if retval = 0 then .whileSigterm
  else .write .restartTincd

/-- The next step of main(), or that of p_sigchild where it has begun. -/
def runMain (setup : Setup) (p : Parent) (answer : Answer) : Option (List Event × Parent) :=
  match p.pc, answer with
  | .fetch first, .done => some ([.fetch], { p with pc := .fetching first })
  | .fetching first, .env e =>
    match mainFetchAndApplyConfig setup.libc setup.config p.client e with
    | none => some ([], { p with pc := .exited })
    | some (report, client) =>
      some ([.fetched report],
        { p with client, pc := if first then .updated true else afterFetch report.retval })
  | .updated first, .time now =>
    some ([], { mainUpdated setup p now with
      pc := if first then .write .signalOldTincd else .sleep })
  | .write c, .done => some ([.wrote c], { p with pc := afterWrite setup c })
  | .write _, .failed => some ([], { p with pc := .exited })
  | .sleep, .done => some ([.slept], { p with pc := .testSighup })
  | .testSighup, .done => some ([], { p with pc := if p.rSighup then .resetSighup else .testTime })
  | .resetSighup, .done => some ([], { p with rSighup := false, pc := .fetch false })
  | .testTime, .time now =>
    some ([], { p with pc := if p.nextupdate < now then .fetch false else .testSigterm })
  | .testSigterm, .done =>
    some ([], { p with pc := if p.rSigterm then .write .stop else .testSigint })
  | .testSigint, .done => some ([], { p with pc := if p.rSigint then .write .stop else .sleep })
  | .whileSigterm, .done =>
    some ([], { p with pc := if p.rSigterm then .write .stop else .whileSigint })
  | .whileSigint, .done =>
    some ([], { p with pc := if p.rSigint then .write .stop else .updated false })
  | .reaping, .done => some ([], { p with pc := .exited })
  | _, _ => none

def Pc.ended : Pc → Bool
  | .returned | .exited => true
  | _ => false

/-- p_sigchild does not come back: it waits for the worker to end, and exits. -/
def step (setup : Setup) (p : Parent) (act : Act) : Option (List Event × Parent) :=
  if p.pc.ended then none
  else
    match act with
    | .run answer => runMain setup p answer
    | .sigint => some ([], { p with rSigint := true })
    | .sigterm => some ([], { p with rSigterm := true })
    | .sighup => some ([], { p with rSighup := true })
    | .sigchild => some ([], { p with pc := .reaping })

abbrev Call := Runs.Call Parent Act (List Event)

abbrev Run (setup : Setup) (tmpconf : Option CStrings.Bytes) : List Call → Parent → Prop :=
  Runs.Run (step setup) (startParent tmpconf)

/-- What happened in the course of a run. -/
def log (t : List Call) : List Event := t.flatMap Runs.Call.out

def Event.command : Event → Option Command
  | .wrote c => some c
  | _ => none

/-- The commands that reached the pipe. -/
def commands (t : List Call) : List Command := (log t).filterMap Event.command

/-! What a step can do -/

inductive Main (setup : Setup) (p : Parent) : Answer → List Event → Parent → Prop
  | fetch {first : Bool} : p.pc = .fetch first →
      Main setup p .done [.fetch] { p with pc := .fetching first }
  | exit {first : Bool} {e : Env} : p.pc = .fetching first →
      mainFetchAndApplyConfig setup.libc setup.config p.client e = none →
      Main setup p (.env e) [] { p with pc := .exited }
  | fetched {first : Bool} {e : Env} {report : Report} {client : Client} : p.pc = .fetching first →
      mainFetchAndApplyConfig setup.libc setup.config p.client e = some (report, client) →
      Main setup p (.env e) [.fetched report]
        { p with client, pc := if first then .updated true else afterFetch report.retval }
  | updated {first : Bool} {now : Int} : p.pc = .updated first →
      Main setup p (.time now) [] { mainUpdated setup p now with
        pc := if first then .write .signalOldTincd else .sleep }
  | wrote {c : Command} : p.pc = .write c →
      Main setup p .done [.wrote c] { p with pc := afterWrite setup c }
  | failed {c : Command} : p.pc = .write c → Main setup p .failed [] { p with pc := .exited }
  | slept : p.pc = .sleep → Main setup p .done [.slept] { p with pc := .testSighup }
  | testSighup : p.pc = .testSighup →
      Main setup p .done [] { p with pc := if p.rSighup then .resetSighup else .testTime }
  | resetSighup : p.pc = .resetSighup →
      Main setup p .done [] { p with rSighup := false, pc := .fetch false }
  | testTime {now : Int} : p.pc = .testTime →
      Main setup p (.time now) []
        { p with pc := if p.nextupdate < now then .fetch false else .testSigterm }
  | testSigterm : p.pc = .testSigterm →
      Main setup p .done [] { p with pc := if p.rSigterm then .write .stop else .testSigint }
  | testSigint : p.pc = .testSigint →
      Main setup p .done [] { p with pc := if p.rSigint then .write .stop else .sleep }
  | whileSigterm : p.pc = .whileSigterm →
      Main setup p .done [] { p with pc := if p.rSigterm then .write .stop else .whileSigint }
  | whileSigint : p.pc = .whileSigint →
      Main setup p .done [] { p with pc := if p.rSigint then .write .stop else .updated false }
  | reaped : p.pc = .reaping → Main setup p .done [] { p with pc := .exited }

variable {setup : Setup} {p p' : Parent} {answer : Answer} {act : Act} {events : List Event}

theorem runMain_cases (h : runMain setup p answer = some (events, p')) :
    Main setup p answer events p' := by
  unfold runMain at h
  split at h
  case h_2 hpc =>
    split at h
    case h_1 hfetch =>
      cases h
      exact .exit hpc hfetch
    case h_2 hfetch =>
      cases h
      exact .fetched hpc hfetch
  case h_15 => cases h
  all_goals cases h
  case h_1 hpc => exact .fetch hpc
  case h_3 hpc => exact .updated hpc
  case h_4 hpc => exact .wrote hpc
  case h_5 hpc => exact .failed hpc
  case h_6 hpc => exact .slept hpc
  case h_7 hpc => exact .testSighup hpc
  case h_8 hpc => exact .resetSighup hpc
  case h_9 hpc => exact .testTime hpc
  case h_10 hpc => exact .testSigterm hpc
  case h_11 hpc => exact .testSigint hpc
  case h_12 hpc => exact .whileSigterm hpc
  case h_13 hpc => exact .whileSigint hpc
  case h_14 hpc => exact .reaped hpc

inductive Step (setup : Setup) (p : Parent) : Act → List Event → Parent → Prop
  | main {answer : Answer} {events : List Event} {p' : Parent} : Main setup p answer events p' →
      Step setup p (.run answer) events p'
  | sigint : Step setup p .sigint [] { p with rSigint := true }
  | sigterm : Step setup p .sigterm [] { p with rSigterm := true }
  | sighup : Step setup p .sighup [] { p with rSighup := true }
  | sigchild : Step setup p .sigchild [] { p with pc := .reaping }

theorem step_cases (h : step setup p act = some (events, p')) :
    p.pc.ended = false ∧ Step setup p act events p' := by
  unfold step at h
  split at h
  · cases h
  · rename_i hended
    refine ⟨Bool.eq_false_iff.mpr hended, ?_⟩
    cases act with
    | run answer => exact .main (runMain_cases h)
    | sigint => cases h; exact .sigint
    | sigterm => cases h; exact .sigterm
    | sighup => cases h; exact .sighup
    | sigchild => cases h; exact .sigchild

theorem log_snoc (t : List Call) (c : Call) : log (t ++ [c]) = log t ++ c.out := by
  simp [log]

theorem commands_snoc (t : List Call) (c : Call) :
    commands (t ++ [c]) = commands t ++ c.out.filterMap Event.command := by
  simp [commands, log]

end ChaosVpn.MainLoop
