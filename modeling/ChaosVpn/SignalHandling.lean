import ChaosVpn.MainLoopRuns

/-! What the signals of the parent lead to: a SIGHUP to a download before a second sleep,
a SIGTERM or SIGINT to handler_stop within a bounded number of steps, and no download
comes without a signal before its time. -/

namespace ChaosVpn.MainLoop
open Libc Settings FetchAndApply Worker

variable {setup : Setup} {tmpconf : Option CStrings.Bytes} {t before after : List Call}
  {p p' : Parent} {answer : Answer} {act : Act} {events : List Event} {c : Call}

def Event.isFetch : Event → Bool
  | .fetch => true
  | _ => false

def Event.isSlept : Event → Bool
  | .slept => true
  | _ => false

def fetches (c : Call) : Bool := c.out.any Event.isFetch

def sleeps (c : Call) : Bool := c.out.any Event.isSlept

/-- A step of main(), where the others are the handlers'. -/
def ownStep (c : Call) : Bool :=
  match c.input with
  | .run _ => true
  | _ => false

/-! SIGHUP -/

/-- The sleeps that may come before the next download. -/
def sleepsLeft (p : Parent) : Nat :=
  match p.pc with
  | .testSighup | .resetSighup | .fetch _ | .reaping | .returned | .exited => 0
  | _ => 1

/-- A SIGHUP is still to be seen, or the download that it asked for comes next. -/
def Asked (p : Parent) : Prop :=
  p.rSighup = true ∨ p.pc = .fetch false ∨ p.pc.leaving = true

theorem asked_step (h : Asked p) (hstep : Step setup p act events p') :
    fetches ⟨p, act, events, p'⟩ = true ∨
      (Asked p' ∧ sleepsLeft p' + (if sleeps ⟨p, act, events, p'⟩ then 1 else 0) ≤ sleepsLeft p) := by
  cases hstep with
  | sigint | sigterm => exact .inr ⟨h, by simp [sleepsLeft, sleeps]⟩
  | sighup => exact .inr ⟨.inl rfl, by simp [sleepsLeft, sleeps]⟩
  | sigchild => exact .inr ⟨.inr (.inr rfl), by simp [sleepsLeft, sleeps]⟩
  | main hmain =>
    cases hmain with
    | fetch => exact .inl rfl
    | exit | failed | reaped => exact .inr ⟨.inr (.inr rfl), by simp [sleepsLeft, sleeps]⟩
    | fetched hpc | updated hpc | wrote hpc | slept hpc | testSighup hpc | resetSighup hpc
    | testTime hpc | testSigterm hpc | testSigint hpc | whileSigterm hpc | whileSigint hpc =>
      refine .inr ⟨?_, ?_⟩
      · grind [Asked, Pc.leaving, mainUpdated]
      · grind [Asked, Pc.leaving, sleepsLeft, sleeps, Event.isSlept, mainUpdated]

theorem sighup_sets (h : Step setup p .sighup events p') : p'.rSighup = true := by
  cases h
  rfl

theorem sleepsLeft_le_one (p : Parent) : sleepsLeft p ≤ 1 := by
  unfold sleepsLeft
  split <;> decide

/-- Behind a SIGHUP the parent sleeps at most once before it starts a download. -/
theorem sighup_answered (setup : Setup) (tmpconf : Option CStrings.Bytes)
    {before after : List Call} {c : Call} {p : Parent}
    (run : Run setup tmpconf (before ++ c :: after) p) (hsighup : c.input = .sighup) :
    after.any fetches = true ∨ after.countP sleeps ≤ 1 := by
  obtain ⟨-, hstep, hafter⟩ := run.behind
  have hasked : Asked c.post := .inl (sighup_sets (hsighup ▸ (step_cases hstep).2))
  suffices h : after.any fetches = true ∨
      (Asked p ∧ after.countP sleeps + sleepsLeft p ≤ sleepsLeft c.post) by
    refine h.imp_right fun h => ?_
    have hone := sleepsLeft_le_one c.post
    omega
  refine hafter.invariant (fun after p => after.any fetches = true ∨
    (Asked p ∧ after.countP sleeps + sleepsLeft p ≤ sleepsLeft c.post)) ?_ ?_
  · exact .inr ⟨hasked, by simp⟩
  · intro after p act events p' _ h hstep
    rw [List.any_append, List.countP_append, Bool.or_eq_true]
    rcases h with h | ⟨hasked, hle⟩
    · exact .inl (.inl h)
    · rcases asked_step hasked (step_cases hstep).2 with hfetch | ⟨hasked', hstepLe⟩
      · exact .inl (.inr (by simpa using hfetch))
      · refine .inr ⟨hasked', ?_⟩
        rw [List.countP_singleton]
        omega

theorem sighup_answered_reload :
    ∃ before c after p, Run sampleSetup none (before ++ c :: after) p ∧ c.input = .sighup ∧
      (after.any fetches = true ∨ after.countP sleeps ≤ 1) := by
  have run : Run sampleSetup none _ _ :=
    Runs.run_of_execute (show Runs.execute _ _ sampleReload = _ from rfl)
  exact ⟨[_, _, _, _, _, _], _, _, _, run, rfl,
    @sighup_answered sampleSetup none [_, _, _, _, _, _] _ _ _ run rfl⟩

/-! Why a download is made -/

def sighups (c : Call) : Bool :=
  match c.input with
  | .sighup => true
  | _ => false

/-- The update interval is over where it is looked at. -/
def expires (c : Call) : Bool :=
  match c.pre.pc, c.input with
  | .testTime, .run (.time now) => c.pre.nextupdate < now
  | _, _ => false

/-- A call of main_updated at this time. -/
def UpdatedAt (u : Int) (c : Call) : Prop :=
  (∃ first, c.pre.pc = .updated first) ∧ c.input = .run (.time u)

def atFetch : Pc → Bool
  | .fetch _ => true
  | _ => false

/-- The downloads that are already asked for. -/
def credit (p : Parent) : Nat := (if p.rSighup then 1 else 0) + if atFetch p.pc then 1 else 0

theorem credit_step (h : p.pc = .resetSighup → p.rSighup = true)
    (hstep : Step setup p act events p') :
    (p'.pc = .resetSighup → p'.rSighup = true) ∧
      credit p' + (if fetches ⟨p, act, events, p'⟩ then 1 else 0) ≤
        credit p + (if sighups ⟨p, act, events, p'⟩ then 1 else 0) +
          if expires ⟨p, act, events, p'⟩ then 1 else 0 := by
  cases hstep with
  | sigint | sigterm | sighup | sigchild =>
    exact ⟨by grind, by grind [credit, fetches, sighups, atFetch]⟩
  | main hmain =>
    cases hmain with
    | @wrote c hpc => cases c <;> grind [credit, fetches, atFetch, Event.isFetch, afterWrite]
    | fetched hpc =>
      exact ⟨by grind [afterFetch],
        by grind [credit, fetches, atFetch, Event.isFetch, afterFetch]⟩
    | fetch hpc | testTime hpc | slept hpc =>
      exact ⟨by grind, by grind [credit, fetches, expires, atFetch, Event.isFetch]⟩
    | exit hpc | updated hpc | failed hpc | testSighup hpc | resetSighup hpc | testSigterm hpc
    | testSigint hpc | whileSigterm hpc | whileSigint hpc | reaped hpc =>
      exact ⟨by grind, by grind [credit, fetches, atFetch, mainUpdated]⟩

/-- Each download but the first was asked for by a SIGHUP of its own or by a wait that
was over. -/
theorem fetches_le (run : Run setup tmpconf t p) :
    t.countP fetches ≤ 1 + t.countP sighups + t.countP expires := by
  suffices h : (p.pc = .resetSighup → p.rSighup = true) ∧
      t.countP fetches + credit p ≤ 1 + t.countP sighups + t.countP expires by
    have hle := h.2
    omega
  refine run.invariant (fun t p => (p.pc = .resetSighup → p.rSighup = true) ∧
    t.countP fetches + credit p ≤ 1 + t.countP sighups + t.countP expires) ?_ ?_
  · exact ⟨by simp [startParent], by simp [startParent, credit, atFetch]⟩
  · intro t p act events p' _ h hstep
    obtain ⟨hreset, hle⟩ := h
    obtain ⟨hreset', hcredit⟩ := credit_step hreset (step_cases hstep).2
    refine ⟨hreset', ?_⟩
    simp only [List.countP_append, List.countP_singleton]
    omega

/-- The loop around sleep(). -/
def Pc.waits : Pc → Bool
  | .sleep | .testSighup | .resetSighup | .testTime | .testSigterm | .testSigint => true
  | _ => false

/-- main_updated was called at a time that the test of the clock goes by, and nothing has
been downloaded since. -/
def Clocked (setup : Setup) (t : List Call) (p : Parent) : Prop :=
  p.pc.waits = true → ∃ u, p.nextupdate = u + setup.updateInterval ∧
    Runs.Since (UpdatedAt u) (fun d => (∀ v, ¬ UpdatedAt v d) ∧ fetches d = false) t

theorem clocked_step (h : Clocked setup t p) (hstep : Step setup p act events p') :
    Clocked setup (t ++ [⟨p, act, events, p'⟩]) p' := by
  intro hwaits
  by_cases hupdated : ∃ u, UpdatedAt u ⟨p, act, events, p'⟩
  · obtain ⟨u, hu⟩ := hupdated
    obtain ⟨⟨first, hpc⟩, hact⟩ := hu
    refine ⟨u, ?_, Runs.since_snoc t ⟨⟨first, hpc⟩, hact⟩⟩
    dsimp only at hact
    subst hact
    cases hstep with
    | main hmain => cases hmain <;> simp_all [mainUpdated]
  · rw [not_exists] at hupdated
    have hbefore : p.pc.waits = true ∧ p'.nextupdate = p.nextupdate ∧
        fetches ⟨p, act, events, p'⟩ = false := by
      cases hstep with
      | sigint | sigterm | sighup => exact ⟨hwaits, rfl, rfl⟩
      | sigchild => cases hwaits
      | main hmain =>
        cases hmain with
        | @updated first now hpc => exact absurd ⟨⟨first, hpc⟩, rfl⟩ (hupdated now)
        | @wrote c hpc => cases c <;> grind [Pc.waits, afterWrite]
        | _ => grind [Pc.waits, afterFetch, fetches, Event.isFetch]
    obtain ⟨hwaited, hnext, hfetch⟩ := hbefore
    obtain ⟨u, hu, hsince⟩ := h hwaited
    exact ⟨u, hnext.trans hu, hsince.snoc ⟨hupdated, hfetch⟩⟩

theorem clocked (run : Run setup tmpconf t p) : Clocked setup t p := by
  refine run.invariant (Clocked setup) (by simp [Clocked, startParent, Pc.waits]) ?_
  intro t p act events p' _ h hstep
  exact clocked_step h (step_cases hstep).2

/-- Each download but the first has a SIGHUP of its own, or a wait that was over: more than
the update interval had gone by since main_updated, with no download in between. -/
theorem fetches_paced (setup : Setup) (tmpconf : Option CStrings.Bytes) {t : List Call}
    {p : Parent} (run : Run setup tmpconf t p) :
    t.countP fetches ≤ 1 + t.countP sighups + t.countP expires ∧
      ∀ before c after now, t = before ++ c :: after → expires c = true →
        c.input = .run (.time now) →
        Runs.Since (fun d => ∃ u, UpdatedAt u d ∧ u + setup.updateInterval < now)
          (fun d => (∀ v, ¬ UpdatedAt v d) ∧ fetches d = false) before := by
  refine ⟨fetches_le run, ?_⟩
  rintro before c after now rfl hexpires hinput
  obtain ⟨hbefore, -, -⟩ := run.behind
  obtain ⟨hpc, hnow⟩ : c.pre.pc = .testTime ∧ c.pre.nextupdate < now := by
    unfold expires at hexpires
    grind
  obtain ⟨u, hu, front, d, rest, rfl, hd, hrest⟩ := clocked hbefore (by rw [hpc]; rfl)
  exact ⟨front, d, rest, rfl, ⟨u, hd, hu ▸ hnow⟩, hrest⟩

theorem fetches_paced_reload :
    ∃ t p, Run sampleSetup none t p ∧ t.countP fetches = 2 ∧
      t.countP fetches ≤ 1 + t.countP sighups + t.countP expires ∧
        ∀ before c after now, t = before ++ c :: after → expires c = true →
          c.input = .run (.time now) →
          Runs.Since (fun d => ∃ u, UpdatedAt u d ∧ u + sampleSetup.updateInterval < now)
            (fun d => (∀ v, ¬ UpdatedAt v d) ∧ fetches d = false) before := by
  have run : Run sampleSetup none _ _ :=
    Runs.run_of_execute (show Runs.execute _ _ sampleReload = _ from rfl)
  exact ⟨_, _, run, rfl, fetches_paced sampleSetup none run⟩

/-! SIGTERM and SIGINT -/

def Stopping (p : Parent) : Prop := p.rSigterm = true ∨ p.rSigint = true

/-- The steps that main() still makes when it is to stop. A flag that is set behind its
test is seen only after another sleep. -/
def stepsLeft (p : Parent) : Nat :=
  match p.pc with
  | .fetch true => 15
  | .fetching true => 14
  | .updated true => 13
  | .write .signalOldTincd => 12
  | .write .startTincd => 11
  | .updated false => 10
  | .sleep => 9
  | .testSighup => 8
  | .resetSighup | .testTime => 7
  | .fetch false => 6
  | .fetching false => 5
  | .write .restartTincd => 4
  | .whileSigterm | .testSigterm => 3
  | .whileSigint | .testSigint => if p.rSigint then 2 else 11
  | .write _ | .reaping => 1
  | .returned | .exited => 0

theorem stepsLeft_le (p : Parent) : stepsLeft p ≤ 15 := by
  unfold stepsLeft
  split <;> try split
  all_goals omega

theorem stopping_step (h : Stopping p) (hended : p.pc.ended = false)
    (hstep : Step setup p act events p') :
    Stopping p' ∧
      stepsLeft p' + (if ownStep ⟨p, act, events, p'⟩ then 1 else 0) ≤ stepsLeft p := by
  cases hstep with
  | sigint | sigterm | sighup =>
    exact ⟨by simp_all [Stopping], by grind [stepsLeft, ownStep]⟩
  | sigchild => exact ⟨h, by grind [stepsLeft, ownStep, Pc.ended]⟩
  | main hmain =>
    cases hmain with
    | @wrote c hpc => exact ⟨h, by cases c <;> grind [stepsLeft, ownStep, afterWrite]⟩
    | @fetched first _ _ _ hpc =>
      exact ⟨h, by cases first <;> grind [stepsLeft, ownStep, afterFetch]⟩
    | @updated first _ hpc =>
      exact ⟨h, by cases first <;> grind [stepsLeft, ownStep, mainUpdated]⟩
    | @fetch first hpc | @exit first _ hpc =>
      exact ⟨h, by cases first <;> grind [stepsLeft, ownStep]⟩
    | _ => exact ⟨h, by grind [stepsLeft, ownStep, Stopping]⟩

theorem stopping_lowers : Runs.Lowers Stopping stepsLeft ownStep (step setup) := by
  intro p act events p' h hstep
  obtain ⟨hended, hstep⟩ := step_cases hstep
  exact stopping_step h hended hstep

theorem signal_stops (h : Step setup p act events p') (hact : act = .sigterm ∨ act = .sigint) :
    Stopping p' := by
  rcases hact with rfl | rfl
  · cases h
    exact .inl rfl
  · cases h
    exact .inr rfl

theorem sleeps_pc (h : Step setup c.pre c.input c.out c.post) (hsleeps : sleeps c = true) :
    ownStep c = true ∧ c.pre.pc = .sleep := by
  obtain ⟨pre, input, out, post⟩ := c
  dsimp only at h
  cases h with
  | main hmain => cases hmain <;> simp_all [sleeps, ownStep, Event.isSlept]
  | sigint | sigterm | sighup | sigchild => cases hsleeps

/-- A download behind the first. -/
def refetches (c : Call) : Bool := fetches c && c.pre.pc == .fetch false

theorem refetches_pc (h : Step setup c.pre c.input c.out c.post) (hfetches : refetches c = true) :
    ownStep c = true ∧ c.pre.pc = .fetch false := by
  obtain ⟨hfetches, hpc⟩ := Bool.and_eq_true_iff.mp hfetches
  refine ⟨?_, of_decide_eq_true hpc⟩
  obtain ⟨pre, input, out, post⟩ := c
  dsimp only at h
  cases h with
  | main => rfl
  | sigint | sigterm | sighup | sigchild => cases hfetches

/-- main() is never stuck: each call that it makes can return. -/
theorem runMain_enabled (h : p.pc.ended = false) :
    ∃ answer, (step setup p (.run answer)).isSome = true := by
  suffices hmain : ∃ answer, (runMain setup p answer).isSome = true by
    obtain ⟨answer, hanswer⟩ := hmain
    exact ⟨answer, by simpa [step, h] using hanswer⟩
  cases hpc : p.pc with
  | fetching first =>
    refine ⟨.env (rawEnv [] fun _ => true), ?_⟩
    simp only [runMain, hpc]
    split <;> rfl
  | updated | testTime => exact ⟨.time 0, by simp [runMain, hpc]⟩
  | returned | exited => rw [hpc] at h; cases h
  | _ => exact ⟨.done, by simp [runMain, hpc]⟩

theorem returned_step (h : p.pc.ended = false) (hstep : Step setup p act events p')
    (hreturned : p'.pc = .returned) : ∃ c, events = [.wrote c] ∧ p.pc = .write c ∧
      afterWrite setup c = .returned := by
  cases hstep with
  | sigint | sigterm | sighup => rw [show p.pc = .returned from hreturned] at h; cases h
  | sigchild => cases hreturned
  | main hmain =>
    cases hmain with
    | @wrote c hpc => exact ⟨c, rfl, hpc, hreturned⟩
    | @fetched first => cases first <;> grind [afterFetch]
    | _ => grind

/-- main() returns behind handler_stop, unless it is to run once. -/
theorem returned_stop (run : Run setup tmpconf t p) (honeshot : setup.oneshot = false)
    (hreturned : p.pc = .returned) : (commands t).getLast? = some .stop := by
  revert hreturned
  refine run.invariant (fun t p => p.pc = .returned → (commands t).getLast? = some .stop)
    (by simp [startParent]) ?_
  intro t p act events p' run _ hstep hreturned
  obtain ⟨hended, hstep⟩ := step_cases hstep
  obtain ⟨c, rfl, hpc, hafter⟩ := returned_step hended hstep hreturned
  obtain ⟨phase, -, hphase⟩ := phase_of_run run
  rw [hpc] at hphase
  rw [commands_snoc]
  cases c with
  | stop => simp [Event.command]
  | readFailed => exact hphase.elim
  | signalOldTincd | startTincd | restartTincd => simp [afterWrite, honeshot] at hafter

/-- Behind a SIGTERM or SIGINT main() makes at most fifteen more steps, among them at most one
sleep and one download behind the first, and where it returns handler_stop was its last command. -/
theorem stop_follows (setup : Setup) (tmpconf : Option CStrings.Bytes)
    {before after : List Call} {c : Call} {p : Parent}
    (run : Run setup tmpconf (before ++ c :: after) p)
    (hsignal : c.input = .sigterm ∨ c.input = .sigint) :
    after.countP ownStep ≤ 15 ∧ after.countP sleeps ≤ 1 ∧ after.countP refetches ≤ 1 ∧
      (p.pc.ended = false → ∃ answer, (step setup p (.run answer)).isSome = true) ∧
        (p.pc = .returned → setup.oneshot = false →
          (commands (before ++ c :: after)).getLast? = some .stop) := by
  obtain ⟨-, hstep, hafter⟩ := run.behind
  have hstopping : Stopping c.post := signal_stops (step_cases hstep).2 hsignal
  refine ⟨?_, ?_, ?_, runMain_enabled, fun hreturned honeshot =>
    returned_stop run honeshot hreturned⟩
  · have hle := hafter.countP_add_le stopping_lowers hstopping
    have hmax := stepsLeft_le c.post
    omega
  · refine hafter.countP_le_one stopping_lowers hstopping 9 fun d _ hd hsleeps => ?_
    obtain ⟨hown, hpc⟩ := sleeps_pc (step_cases hd).2 hsleeps
    exact ⟨hown, by rw [stepsLeft, hpc]⟩
  · refine hafter.countP_le_one stopping_lowers hstopping 6 fun d _ hd hfetches => ?_
    obtain ⟨hown, hpc⟩ := refetches_pc (step_cases hd).2 hfetches
    exact ⟨hown, by rw [stepsLeft, hpc]⟩

/-- The SIGTERM comes while tincd is told to start. -/
def sampleStop : List Act :=
  [.run .done, .run (.env (rawEnv (CStrings.ascii "[a]\n") fun _ => true)), .run (.time 1000),
   .run .done, .sigterm, .run .done, .run (.time 1000), .run .done, .run .done, .run (.time 1060),
   .run .done, .run .done]

theorem stop_follows_start :
    ∃ before c after p, Run sampleSetup none (before ++ c :: after) p ∧ p.pc = .returned ∧
      c.input = .sigterm ∧ after.countP ownStep ≤ 15 ∧ after.countP sleeps ≤ 1 ∧
        after.countP refetches ≤ 1 ∧
          (p.pc.ended = false → ∃ answer, (step sampleSetup p (.run answer)).isSome = true) ∧
            (p.pc = .returned → sampleSetup.oneshot = false →
              (commands (before ++ c :: after)).getLast? = some .stop) := by
  have run : Run sampleSetup none _ _ :=
    Runs.run_of_execute (show Runs.execute _ _ sampleStop = _ from rfl)
  exact ⟨[_, _, _, _], _, _, _, run, rfl, rfl, stop_follows sampleSetup none run (.inl rfl)⟩

end ChaosVpn.MainLoop
