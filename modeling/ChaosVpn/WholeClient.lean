import Mathlib.Data.List.Induction
import ChaosVpn.Library.Channels
import ChaosVpn.MainLoopRuns
import ChaosVpn.SingleTincd

/-! The parent and the worker with the pipe between them, in any interleaving. The worker
reads whatever byte comes; that it never reads one out of order is what the parent's loop is
there for. -/

namespace ChaosVpn.WholeClient
open Channels Runs Worker
open Channels.Machines (senderCalls receiverCalls)
open SingleTincd (runningTincds)

structure Setup where
  parent : MainLoop.Setup
  runIfdown : Bool
  tincdRestartDelay : Nat

def Setup.worker (setup : Setup) : Worker.Setup :=
  ⟨setup.parent.oneshot, setup.runIfdown, setup.tincdRestartDelay⟩

/-- The loop of the worker does not look at what it has read before. -/
def workerStep (setup : Setup) (st : State) : Act → Option (List Event × State)
  | .command c =>
    if st.exited then none
    else if st.stack = [⟨.loop, []⟩] then
      some ([], { st with
        phase := (st.phase.next c).getD st.phase, stack := [⟨.loop, commandOps c⟩] })
    else none
  | act => step setup.worker st act

def reads : Act → Option Command
  | .command .readFailed => none
  | .command c => some c
  | _ => none

/-- p_sigchild waits for the worker, and read() finds the end of the pipe when it is empty
and the parent gone. -/
def allowed (p : Pair MainLoop.Parent State Command) : MainLoop.Act ⊕ Act → Bool
  | .inl (.run _) => p.sender.pc != .reaping || p.receiver.exited
  | .inr (.command .readFailed) => p.queue.isEmpty && p.sender.pc.ended
  | _ => true

def client (setup : Setup) : Machines MainLoop.Parent State MainLoop.Act Act
    (List MainLoop.Event) (List Event) Command where
  send := MainLoop.step setup.parent
  sent events := events.filterMap MainLoop.Event.command
  receive := workerStep setup
  takes := reads
  allowed := allowed

def startClient (tmpconf : Option CStrings.Bytes) : Pair MainLoop.Parent State Command :=
  ⟨MainLoop.startParent tmpconf, [], startState⟩

abbrev Call := Machines.PairCall MainLoop.Parent State MainLoop.Act Act
  (List MainLoop.Event) (List Event) Command

abbrev Run (setup : Setup) (tmpconf : Option CStrings.Bytes) :
    List Call → Pair MainLoop.Parent State Command → Prop :=
  Runs.Run (client setup).step (startClient tmpconf)

variable {setup : Setup} {tmpconf : Option CStrings.Bytes} {t : List Call}
  {s : Pair MainLoop.Parent State Command} {st st' : State} {act : Act} {events : List Event}

theorem sentBy_commands (setup : Setup) (t : List Call) :
    (client setup).sentBy t = MainLoop.commands (senderCalls t) := by
  simp only [Machines.sentBy, MainLoop.commands, MainLoop.log, List.filterMap_flatMap]
  rfl

/-- The commands taken from the pipe and those in it are those that were written. -/
theorem taken_append_queue (run : Run setup tmpconf t s) :
    MainLoop.commands (senderCalls t) = (client setup).takenBy t ++ s.queue := by
  rw [← sentBy_commands setup]
  simpa [startClient] using Machines.sentBy_eq run

theorem reads_eq {c : Command} (h : reads act = some c) : act = .command c ∧ c ≠ .readFailed := by
  unfold reads at h
  grind

theorem step_phase (h : Worker.step setup.worker st act = some (events, st'))
    (hact : ∀ c, act ≠ .command c) : st'.phase = st.phase := by
  cases (step_cases h).2 with
  | command => exact absurd rfl (hact _)
  | run | leave | exits | notify | sigchld | deliver => rfl

/-- A command that the worker's phase allows is read as the worker reads it. -/
theorem workerStep_eq (h : workerStep setup st act = some (events, st'))
    (hnext : ∀ c, act = .command c → (st.phase.next c).isSome = true) :
    Worker.step setup.worker st act = some (events, st') ∧
      ∀ c, act = .command c → st.phase.next c = some st'.phase := by
  cases act with
  | command c =>
    obtain ⟨phase, hphase⟩ := Option.isSome_iff_exists.mp (hnext c rfl)
    simp only [workerStep, hphase, Option.getD_some] at h
    split at h
    · cases h
    · rename_i hexited
      split at h
      · rename_i hstack
        cases h
        refine ⟨by simp [step, hexited, hstack, hphase], fun d hd => ?_⟩
        cases hd
        exact hphase
      · cases h
  | _ => exact ⟨h, by simp⟩

/-- The worker is behind the commands that it took, unless it has seen the end of the pipe. -/
def Follows (setup : Setup) (t : List Call) (s : Pair MainLoop.Parent State Command) : Prop :=
  Worker.Run setup.worker (receiverCalls t) s.receiver ∧
    (((client setup).takenBy t).foldlM Phase.next .fresh = some s.receiver.phase ∨
      (s.queue = [] ∧ s.sender.pc.ended = true))

theorem Follows.send (h : Follows setup t s) {i : MainLoop.Act} {o : List MainLoop.Event}
    {p : MainLoop.Parent} (hsend : MainLoop.step setup.parent s.sender i = some (o, p))
    (queue : List Command) :
    Follows setup (t ++ [⟨s, .inl i, .inl o, ⟨p, queue, s.receiver⟩⟩]) ⟨p, queue, s.receiver⟩ := by
  refine ⟨by rw [Machines.receiverCalls_send]; exact h.1, ?_⟩
  rcases h.2 with hphase | ⟨-, hended⟩
  · exact .inl (by rw [Machines.takenBy_send]; exact hphase)
  · rw [(MainLoop.step_cases hsend).1] at hended
    cases hended

/-- Each command that is in the pipe may come next. -/
theorem Follows.next (h : Follows setup t s) (run : Run setup tmpconf t s) {c : Command}
    {queue : List Command} (hqueue : s.queue = c :: queue) :
    ((client setup).takenBy t).foldlM Phase.next .fresh = some s.receiver.phase ∧
      (s.receiver.phase.next c).isSome = true := by
  have hphase := h.2.resolve_right (by simp [hqueue])
  refine ⟨hphase, ?_⟩
  obtain ⟨phase, hcommands, -⟩ := MainLoop.phase_of_run (Machines.run_sender run)
  rw [show MainLoop.commands _ = _ from taken_append_queue run, hqueue, List.foldlM_append,
    hphase] at hcommands
  rw [Option.bind_eq_bind, Option.bind_some, List.foldlM_cons] at hcommands
  obtain ⟨next, hnext, -⟩ := Option.bind_eq_some_iff.mp hcommands
  exact Option.isSome_iff_exists.mpr ⟨next, hnext⟩

theorem Follows.receive (h : Follows setup t s) {o : List Event} {r : State} {queue : List Command}
    (hnext : ∀ c, act = .command c → (s.receiver.phase.next c).isSome = true)
    (hreceive : workerStep setup s.receiver act = some (o, r))
    (hphase : (((client setup).takenBy t ++ (reads act).toList).foldlM Phase.next .fresh =
        some r.phase) ∨ (queue = [] ∧ s.sender.pc.ended = true)) :
    Follows setup (t ++ [⟨s, .inr act, .inr o, ⟨s.sender, queue, r⟩⟩])
      ⟨s.sender, queue, r⟩ := by
  refine ⟨?_, hphase.imp_left fun hphase => ?_⟩
  · rw [Machines.receiverCalls_receive]
    exact .snoc h.1 (workerStep_eq hreceive hnext).1
  · rw [Machines.takenBy_receive]
    exact hphase

theorem follows_step (h : Follows setup t s) (run : Run setup tmpconf t s)
    {i : MainLoop.Act ⊕ Act} {o : List MainLoop.Event ⊕ List Event}
    {s' : Pair MainLoop.Parent State Command} (hallowed : allowed s i = true)
    (hstep : Machines.Step (client setup) s i o s') : Follows setup (t ++ [⟨s, i, o, s'⟩]) s' := by
  cases hstep with
  | send hsend => exact h.send hsend _
  | @receive act o r htakes hreceive =>
    have htakes : reads act = none := htakes
    by_cases hread : act = .command .readFailed
    · -- the parent has gone, so what the worker took does not matter any more
      subst hread
      obtain ⟨hqueue, hended⟩ := Bool.and_eq_true_iff.mp hallowed
      refine h.receive (fun c hc => ?_) hreceive (.inr ⟨List.isEmpty_iff.mp hqueue, hended⟩)
      cases hc
      cases s.receiver.phase <;> rfl
    · have hact : ∀ c, act ≠ .command c := by
        rintro c rfl
        unfold reads at htakes
        grind
      refine h.receive (fun c hc => absurd hc (hact c)) hreceive (h.2.imp_left fun hphase => ?_)
      have heq := workerStep_eq hreceive fun c hc => absurd hc (hact c)
      rw [htakes, Option.toList_none, List.append_nil, hphase, step_phase heq.1 hact]
  | @take act o r c queue htakes hqueue hreceive =>
    obtain ⟨rfl, -⟩ := reads_eq htakes
    obtain ⟨hphase, hnext⟩ := h.next run hqueue
    have hnext : ∀ d, Act.command c = .command d → (s.receiver.phase.next d).isSome = true := by
      rintro d hd
      cases hd
      exact hnext
    refine h.receive hnext hreceive (.inl ?_)
    rw [show reads (.command c) = some c from htakes, Option.toList_some, List.foldlM_append, hphase]
    have hreceive : workerStep setup s.receiver (.command c) = some (o, r) := hreceive
    show s.receiver.phase.next c >>= _ = _
    rw [(workerStep_eq hreceive hnext).2 c rfl]
    rfl

theorem follows (run : Run setup tmpconf t s) : Follows setup t s := by
  refine run.invariant (Follows setup) ⟨.nil, .inl rfl⟩ ?_
  intro t s i o s' run h hstep
  obtain ⟨hallowed, hstep⟩ := Machines.step_cases hstep
  exact follows_step h run hallowed hstep

/-! Restarts and applied texts -/

def isRestart : MainLoop.Event → Bool
  | .wrote .restartTincd => true
  | _ => false

/-- A download that wrote all files of a changed text. -/
def applies : MainLoop.Event → Bool
  | .fetched report => report.retval = 1
  | _ => false

theorem restarts_le {l : List MainLoop.Event} (h : MainLoop.RestartsDue l) :
    l.countP isRestart ≤ l.countP applies ∧
      (MainLoop.Due l → l.countP isRestart < l.countP applies) := by
  induction l using List.reverseRecOn with
  | nil => exact ⟨le_rfl, fun hdue => by simp [MainLoop.Due] at hdue⟩
  | append_singleton l e ih =>
    obtain ⟨hle, hlt⟩ := ih fun front e' after heq => h front e' (after ++ [e]) (by simp [heq])
    have he : e = .wrote .restartTincd ↔ MainLoop.Due l := h l e [] rfl
    simp only [List.countP_append, List.countP_singleton]
    cases e with
    | fetched report =>
      rw [MainLoop.due_fetched]
      by_cases hretval : report.retval = 1 <;> simp [isRestart, applies, hretval] <;> omega
    | fetch | slept =>
      refine ⟨by simp [isRestart, applies]; omega, fun hdue => ?_⟩
      exact absurd hdue (MainLoop.not_due_snoc (by simp))
    | wrote c =>
      refine ⟨?_, fun hdue => absurd hdue (MainLoop.not_due_snoc (by simp))⟩
      cases c with
      | restartTincd =>
        have hdue := hlt (he.mp rfl)
        simp [isRestart, applies]
        omega
      | signalOldTincd | startTincd | stop | readFailed =>
        simp [isRestart, applies]
        omega

theorem count_restarts (t : List MainLoop.Call) :
    (MainLoop.commands t).count .restartTincd = (MainLoop.log t).countP isRestart := by
  rw [MainLoop.commands, List.count, List.countP_filterMap]
  refine List.countP_congr fun e _ => ?_
  cases e with
  | wrote c => cases c <;> simp [MainLoop.Event.command, isRestart]
  | _ => simp [MainLoop.Event.command, isRestart]

/-- In every interleaving of the parent, the worker and their signals the worker is given the
commands that were written, in their order and at a time when it can follow them; it runs at
most one tincd, restarts it at most once for each applied text, and is not left behind by a
parent that has gone. -/
theorem whole_client (setup : Setup) (tmpconf : Option CStrings.Bytes) {t : List Call}
    {s : Pair MainLoop.Parent State Command} (run : Run setup tmpconf t s) :
    Worker.Run setup.worker (receiverCalls t) s.receiver ∧
      MainLoop.commands (senderCalls t) = (client setup).takenBy t ++ s.queue ∧
        (runningTincds s.receiver).length ≤ 1 ∧
          ((client setup).takenBy t).count .restartTincd ≤
            (MainLoop.log (senderCalls t)).countP applies ∧
              (s.sender.pc.ended = true → s.receiver.stack = [⟨.loop, []⟩] →
                s.receiver.exited = false →
                  ∃ c, ((client setup).step s (.inr (.command c))).isSome = true) := by
  have hfollows := follows run
  have hcommands := taken_append_queue run
  refine ⟨hfollows.1, hcommands, ?_, ?_, fun hended hstack hexited => ?_⟩
  · have hsingle := (sound hfollows.1).single
    have hle : (runningTincds s.receiver).length ≤ s.receiver.tincds := by
      rw [runningTincds, ← List.countP_eq_length_filter, Context.tincds]
      exact List.countP_mono_left fun c _ hc => (Bool.and_eq_true_iff.mp hc).1
    omega
  · have hkept := MainLoop.kept_run (Machines.run_sender run)
    calc ((client setup).takenBy t).count .restartTincd
        ≤ (MainLoop.commands (senderCalls t)).count .restartTincd := by
          rw [hcommands, List.count_append]
          omega
      _ = (MainLoop.log (senderCalls t)).countP isRestart := count_restarts _
      _ ≤ _ := (restarts_le hkept.restarts).1
  · cases hqueue : s.queue with
    | nil =>
      refine ⟨.readFailed, ?_⟩
      simp [Machines.step, Machines.behind, client, allowed, reads, workerStep, hqueue, hended,
        hstack, hexited]
    | cons c queue =>
      have hc : c ≠ .readFailed := by
        rintro rfl
        refine MainLoop.readFailed_not_sent (Machines.run_sender run) ?_
        rw [show MainLoop.commands _ = _ from hcommands, hqueue]
        simp
      refine ⟨c, ?_⟩
      cases c <;> simp_all [Machines.step, Machines.behind, client, allowed, reads, workerStep]

def sampleSetup : Setup := ⟨MainLoop.sampleSetup, true, 20⟩

/-- The worker starts tincd 100 while the parent waits, and reads the restart that a SIGHUP
leads to. -/
def sampleActs : List (MainLoop.Act ⊕ Act) :=
  (MainLoop.sampleReload.take 5).map .inl ++ (sampleStart).map .inr ++
    (MainLoop.sampleReload.drop 5).map .inl ++ [.inr (.command .restartTincd)]

theorem whole_client_reload :
    ∃ t s, Run sampleSetup none t s ∧
      (client sampleSetup).takenBy t = [.signalOldTincd, .startTincd, .restartTincd] ∧
        Worker.Run sampleSetup.worker (receiverCalls t) s.receiver ∧
          MainLoop.commands (senderCalls t) = (client sampleSetup).takenBy t ++ s.queue ∧
            (runningTincds s.receiver).length ≤ 1 ∧
              ((client sampleSetup).takenBy t).count .restartTincd ≤
                (MainLoop.log (senderCalls t)).countP applies ∧
                  (s.sender.pc.ended = true → s.receiver.stack = [⟨.loop, []⟩] →
                    s.receiver.exited = false →
                      ∃ c, ((client sampleSetup).step s (.inr (.command c))).isSome = true) := by
  have run : Run sampleSetup none _ _ :=
    Runs.run_of_execute (show Runs.execute _ _ sampleActs = _ from rfl)
  exact ⟨_, _, run, rfl, whole_client sampleSetup none run⟩

end ChaosVpn.WholeClient
