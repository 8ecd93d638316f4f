import ChaosVpn.Library.Measures
import ChaosVpn.MainLoop

/-! The commands of the parent over its whole runs: they come in the order that the worker
expects, and tincd is restarted behind each later download that wrote all files, and at no
other time. -/

namespace ChaosVpn.MainLoop
open Libc Settings FetchAndApply Worker

variable {setup : Setup} {tmpconf : Option CStrings.Bytes} {t : List Call} {p p' : Parent}
  {answer : Answer} {act : Act} {events : List Event} {report : Report}

/-! Results of the downloads -/

/-- All files of a changed text have been written. -/
def Complete (report : Report) : Prop := report.writes = some (writeSteps.map (·, true))

theorem runWrites_complete_iff (succeeds : WriteStep → Bool) (steps : List WriteStep) :
    runWrites succeeds steps = steps.map (·, true) ↔ ∀ step ∈ steps, succeeds step = true := by
  induction steps with
  | nil => simp [runWrites]
  | cons step steps ih => by_cases h : succeeds step = true <;> simp [runWrites, h, ih]

theorem retval_cases {libc : CLibrary} {config : Config} {client post : Client} {env : Env}
    (h : mainFetchAndApplyConfig libc config client env = some (report, post)) :
    (report.retval = -1 ∨ report.retval = 0 ∨ report.retval = 1) ∧
      (report.retval = 1 ↔ Complete report) := by
  obtain ⟨request, -, hout⟩ := mainFetchAndApplyConfig_cases h
  cases hout with
  | noText | unchanged | refused => simp [Complete]
  | interrupted text parsed writes _ _ _ _ hfail hwrites =>
    refine ⟨.inl rfl, by simp, fun hcomplete => absurd ?_ hfail⟩
    have hcomplete : writes = some (writeSteps.map (·, true)) := hcomplete
    rw [hwrites] at hcomplete
    split at hcomplete
    · rename_i hcleanup
      exact ⟨hcleanup, (runWrites_complete_iff _ _).mp (Option.some.inj hcomplete)⟩
    · cases hcomplete
  | applied => simp [Complete]

theorem afterFetch_restart
    (h : report.retval = -1 ∨ report.retval = 0 ∨ report.retval = 1) :
    afterFetch report.retval = if report.retval = 1 then .write .restartTincd else .whileSigterm := by
  rcases h with h | h | h <;> rw [h] <;> rfl

/-! The order of the commands -/

/-- What the commands that were written say where main() stands. -/
def Pc.inPhase : Pc → Phase → Prop
  | .fetch true, phase | .fetching true, phase | .updated true, phase => phase = .fresh
  | .write .signalOldTincd, phase => phase = .fresh
  | .write .startTincd, phase => phase = .signalled
  | .write .readFailed, _ => False
  | .returned, phase => phase = .started ∨ phase = .stopped
  | .reaping, _ | .exited, _ => True
  | _, phase => phase = .started

theorem inPhase_afterFetch (retval : Int) : (afterFetch retval).inPhase .started := by
  unfold afterFetch
  split
  · rfl
  · split <;> rfl

theorem inPhase_step {phase : Phase} (h : p.pc.inPhase phase) (hstep : Step setup p act events p') :
    ∃ phase', (events.filterMap Event.command).foldlM Phase.next phase = some phase' ∧
      p'.pc.inPhase phase' := by
  cases hstep with
  | sigint | sigterm | sighup => exact ⟨phase, rfl, h⟩
  | sigchild => exact ⟨phase, rfl, trivial⟩
  | main hmain =>
    cases hmain with
    | @fetch first hpc => rw [hpc] at h; exact ⟨phase, rfl, by cases first <;> exact h⟩
    | @fetched first _ report client hpc =>
      rw [hpc] at h
      cases first with
      | true => exact ⟨phase, rfl, h⟩
      | false => exact ⟨phase, rfl, h ▸ inPhase_afterFetch report.retval⟩
    | @updated first _ hpc => rw [hpc] at h; exact ⟨phase, rfl, by cases first <;> exact h⟩
    | @wrote c hpc =>
      rw [hpc] at h
      cases c with
      | signalOldTincd => cases h; exact ⟨.signalled, rfl, rfl⟩
      | startTincd =>
        cases h
        refine ⟨.started, rfl, ?_⟩
        simp only [afterWrite]
        split
        · exact .inl rfl
        · rfl
      | restartTincd => cases h; exact ⟨.started, rfl, rfl⟩
      | stop => cases h; exact ⟨.stopped, rfl, .inr rfl⟩
      | readFailed => exact h.elim
    | exit | failed | reaped => exact ⟨phase, rfl, trivial⟩
    | slept hpc | resetSighup hpc => rw [hpc] at h; exact ⟨phase, rfl, h⟩
    | testSighup hpc | testTime hpc | testSigterm hpc | testSigint hpc | whileSigterm hpc
    | whileSigint hpc =>
      rw [hpc] at h
      refine ⟨phase, rfl, ?_⟩
      dsimp only
      split <;> exact h

theorem phase_of_run (run : Run setup tmpconf t p) :
    ∃ phase, (commands t).foldlM Phase.next .fresh = some phase ∧ p.pc.inPhase phase := by
  refine run.invariant (fun t p => ∃ phase, (commands t).foldlM Phase.next .fresh = some phase ∧
    p.pc.inPhase phase) ⟨.fresh, rfl, show Pc.inPhase (.fetch true) .fresh from rfl⟩ ?_
  rintro t p act events p' _ ⟨phase, hphase, hpc⟩ hstep
  obtain ⟨phase', hnext, hpc'⟩ := inPhase_step hpc (step_cases hstep).2
  refine ⟨phase', ?_, hpc'⟩
  rw [commands_snoc, List.foldlM_append, hphase]
  exact hnext

theorem command_of_step {c : Command} (hstep : Step setup p act events p')
    (hc : c ∈ events.filterMap Event.command) : p.pc = .write c := by
  cases hstep with
  | main hmain => cases hmain <;> simp_all [Event.command]
  | sigint | sigterm | sighup | sigchild => cases hc

theorem readFailed_not_sent (run : Run setup tmpconf t p) : .readFailed ∉ commands t := by
  refine run.invariant (fun t _ => .readFailed ∉ commands t) List.not_mem_nil ?_
  intro t p act events p' run h hstep
  rw [commands_snoc, List.mem_append, not_or]
  refine ⟨h, fun hc => ?_⟩
  obtain ⟨phase, -, hphase⟩ := phase_of_run run
  rw [command_of_step (step_cases hstep).2 hc] at hphase
  exact hphase

/-! Downloads and restarts -/

/-- The last thing that happened is a download, made while tincd was to run, that applied
a changed text. -/
def Due (l : List Event) : Prop :=
  ∃ front report, l = front ++ [.fetched report] ∧ report.retval = 1 ∧
    .wrote .startTincd ∈ front

/-- A restart comes directly behind each such download and nowhere else. -/
def RestartsDue (l : List Event) : Prop :=
  ∀ front e after, l = front ++ e :: after → (e = .wrote .restartTincd ↔ Due front)

theorem not_due_snoc {l : List Event} {e : Event} (he : ∀ report, e ≠ .fetched report) :
    ¬ Due (l ++ [e]) := by
  rintro ⟨front, report, heq, -⟩
  exact he report (List.singleton_inj.mp (List.append_inj' heq rfl).2)

theorem due_fetched {l : List Event} :
    Due (l ++ [.fetched report]) ↔ report.retval = 1 ∧ .wrote .startTincd ∈ l := by
  constructor
  · rintro ⟨front, report', heq, hretval, hstart⟩
    obtain ⟨rfl, hlast⟩ := List.append_inj' heq rfl
    cases List.singleton_inj.mp hlast
    exact ⟨hretval, hstart⟩
  · rintro ⟨hretval, hstart⟩
    exact ⟨l, report, rfl, hretval, hstart⟩

theorem RestartsDue.snoc {l : List Event} {e : Event} (h : RestartsDue l)
    (he : e = .wrote .restartTincd ↔ Due l) : RestartsDue (l ++ [e]) := by
  intro front e' after heq
  rcases List.eq_nil_or_concat after with rfl | ⟨rest, last, rfl⟩
  · obtain ⟨rfl, hlast⟩ := List.append_inj' heq rfl
    cases List.singleton_inj.mp hlast
    exact he
  · have heq : l ++ [e] = (front ++ e' :: rest) ++ [last] := by simpa using heq
    exact h front e' rest (List.append_inj' heq rfl).1

/-- tincd has not been started where main() stands. -/
def Pc.beforeStart : Pc → Bool
  | .fetch first | .fetching first | .updated first => first
  | .write .signalOldTincd | .write .startTincd => true
  | _ => false

/-- The handler of SIGCHLD or exit() has taken main() off its way. -/
def Pc.leaving : Pc → Bool
  | .reaping | .exited => true
  | _ => false

structure Kept (t : List Call) (p : Parent) : Prop where
  restarts : RestartsDue (log t)
  due : p.pc = .write .restartTincd → Due (log t)
  pending : Due (log t) → p.pc = .write .restartTincd ∨ p.pc.leaving = true
  started : p.pc.leaving = false → (.wrote .startTincd ∈ log t ↔ p.pc.beforeStart = false)
  results : ∀ report, .fetched report ∈ log t → (report.retval = 1 ↔ Complete report)

theorem Kept.flag (h : Kept t p) (hpc : p'.pc = p.pc) : Kept (t ++ [⟨p, act, [], p'⟩]) p' := by
  have hlog : log (t ++ [⟨p, act, [], p'⟩]) = log t := by rw [log_snoc, List.append_nil]
  constructor <;> rw [hlog]
  · exact h.restarts
  · exact hpc ▸ h.due
  · exact hpc ▸ h.pending
  · exact hpc ▸ h.started
  · exact h.results

/-- A step that emits nothing and does not come to a restart. -/
theorem Kept.silent (h : Kept t p) (hrestart : p.pc ≠ .write .restartTincd ∨ p'.pc.leaving = true)
    (hrestart' : p'.pc ≠ .write .restartTincd)
    (hleaving : p'.pc.leaving = true ∨
      (p.pc.leaving = false ∧ p'.pc.beforeStart = p.pc.beforeStart)) :
    Kept (t ++ [⟨p, act, [], p'⟩]) p' := by
  have hlog : log (t ++ [⟨p, act, [], p'⟩]) = log t := by rw [log_snoc, List.append_nil]
  refine ⟨hlog ▸ h.restarts, fun heq => absurd heq hrestart', fun hdue => ?_, fun hp' => ?_,
    hlog ▸ h.results⟩
  · rw [hlog] at hdue
    rcases hrestart with hne | hleft
    · rcases h.pending hdue with heq | hleft
      · exact absurd heq hne
      · rcases hleaving with hleft' | ⟨hstays, -⟩
        · exact .inr hleft'
        · exact absurd hleft (by simp [hstays])
    · exact .inr hleft
  · rcases hleaving with hleft' | ⟨hstays, hbefore⟩
    · exact absurd hleft' (by simp [hp'])
    · rw [hlog, hbefore]
      exact h.started hstays

/-- A step that emits anything but the result of a download. -/
theorem Kept.emit {e : Event} (h : Kept t p) (hstays : p.pc.leaving = false)
    (he : ∀ report, e ≠ .fetched report)
    (hrestart : e = .wrote .restartTincd ↔ p.pc = .write .restartTincd)
    (hrestart' : p'.pc ≠ .write .restartTincd)
    (hbefore : p'.pc.beforeStart = false ↔ e = .wrote .startTincd ∨ p.pc.beforeStart = false) :
    Kept (t ++ [⟨p, act, [e], p'⟩]) p' := by
  have hlog : log (t ++ [⟨p, act, [e], p'⟩]) = log t ++ [e] := by rw [log_snoc]
  have hdue : Due (log t) ↔ p.pc = .write .restartTincd :=
    ⟨fun hdue => (h.pending hdue).resolve_right (by simp [hstays]), h.due⟩
  refine ⟨hlog ▸ h.restarts.snoc (hrestart.trans hdue.symm), fun heq => absurd heq hrestart',
    fun hdue => absurd (hlog ▸ hdue) (not_due_snoc he), fun _ => ?_, ?_⟩
  · rw [hlog, List.mem_append, h.started hstays, List.mem_singleton, hbefore]
    grind
  · intro report hreport
    rw [hlog] at hreport
    rcases List.mem_append.mp hreport with hreport | hreport
    · exact h.results report hreport
    · exact absurd (List.mem_singleton.mp hreport).symm (he report)

theorem kept_fetched {first : Bool} {client : Client} (h : Kept t p) (hpc : p.pc = .fetching first)
    (hresult : report.retval = -1 ∨ report.retval = 0 ∨ report.retval = 1)
    (hcomplete : report.retval = 1 ↔ Complete report) :
    Kept (t ++ [⟨p, act, [.fetched report],
      { p with client, pc := if first then .updated true else afterFetch report.retval }⟩])
      { p with client, pc := if first then .updated true else afterFetch report.retval } := by
  have hstarted := h.started (by rw [hpc]; rfl)
  rw [hpc] at hstarted
  have hnotdue : ¬ Due (log t) := fun hdue => by
    rcases h.pending hdue with heq | heq <;> rw [hpc] at heq <;> cases heq
  have hafter := afterFetch_restart hresult
  refine ⟨?_, fun heq => ?_, fun hdue => ?_, fun _ => ?_, fun report' hreport => ?_⟩
  · rw [log_snoc]
    exact h.restarts.snoc ⟨fun heq => (by cases heq), fun hdue => absurd hdue hnotdue⟩
  · rw [log_snoc, due_fetched, hstarted]
    cases first with
    | true => cases heq
    | false =>
      refine ⟨?_, rfl⟩
      by_contra hne
      have heq : afterFetch report.retval = .write .restartTincd := heq
      rw [heq, if_neg hne] at hafter
      cases hafter
  · rw [log_snoc, due_fetched, hstarted] at hdue
    obtain ⟨hone, hfirst⟩ := hdue
    cases first with
    | true => cases hfirst
    | false => exact .inl (hafter.trans (if_pos hone))
  · rw [log_snoc, List.mem_append, hstarted]
    cases first with
    | true => simp [Pc.beforeStart]
    | false =>
      simp only [Bool.false_eq_true, if_false]
      rw [hafter]
      split <;> simp [Pc.beforeStart]
  · rw [log_snoc] at hreport
    rcases List.mem_append.mp hreport with hreport | hreport
    · exact h.results report' hreport
    · cases List.mem_singleton.mp hreport
      exact hcomplete

theorem kept_step (h : Kept t p) (hstep : Step setup p act events p') :
    Kept (t ++ [⟨p, act, events, p'⟩]) p' := by
  cases hstep with
  | sigint | sigterm | sighup => exact h.flag rfl
  | sigchild => exact h.silent (.inr rfl) (by simp) (.inl rfl)
  | main hmain =>
    cases hmain with
    | @fetch first hpc =>
      refine h.emit (by rw [hpc]; rfl) (by simp) (by simp [hpc]) (by simp) ?_
      rw [hpc]
      simp [Pc.beforeStart]
    | exit | failed | reaped => exact h.silent (.inr rfl) (by simp) (.inl rfl)
    | fetched hpc hfetch =>
      obtain ⟨hresult, hcomplete⟩ := retval_cases hfetch
      exact kept_fetched h hpc hresult hcomplete
    | @updated first _ hpc =>
      refine h.silent (.inl (by simp [hpc])) (by cases first <;> simp) (.inr ?_)
      rw [hpc]
      exact ⟨rfl, by cases first <;> rfl⟩
    | @wrote c hpc =>
      refine h.emit (by rw [hpc]; rfl) (by simp) (by simp [hpc]) ?_ ?_
      all_goals cases c
      all_goals simp only [afterWrite, hpc]
      all_goals grind [Pc.beforeStart]
    | slept hpc =>
      refine h.emit (by rw [hpc]; rfl) (by simp) (by simp [hpc]) (by simp) ?_
      simp [hpc, Pc.beforeStart]
    | resetSighup hpc | testSighup hpc | testTime hpc | testSigterm hpc | testSigint hpc
    | whileSigterm hpc | whileSigint hpc =>
      refine h.silent (.inl (by simp [hpc])) ?_ (.inr ?_)
      all_goals simp only [hpc]
      all_goals grind [Pc.beforeStart, Pc.leaving]

theorem kept_run (run : Run setup tmpconf t p) : Kept t p := by
  refine run.invariant Kept ?_ ?_
  · exact ⟨by simp [RestartsDue, log], by simp [startParent], by simp [Due, log],
      by simp [log, startParent, Pc.beforeStart], by simp [log]⟩
  · intro t p act events p' _ h hstep
    exact kept_step h (step_cases hstep).2

/-- Every run writes the commands in the order that the worker expects. What comes behind a
later download that wrote all files is a restart, and there is no other restart. -/
theorem commands_of_run (setup : Setup) (tmpconf : Option CStrings.Bytes) {t : List Call}
    {p : Parent} (run : Run setup tmpconf t p) :
    (∃ phase, (commands t).foldlM Phase.next .fresh = some phase) ∧ .readFailed ∉ commands t ∧
      RestartsDue (log t) ∧
        ∀ report, .fetched report ∈ log t → (report.retval = 1 ↔ Complete report) := by
  have hkept := kept_run run
  obtain ⟨phase, hphase, -⟩ := phase_of_run run
  exact ⟨⟨phase, hphase⟩, readFailed_not_sent run, hkept.restarts, hkept.results⟩

def sampleSetup : Setup := ⟨plainLibrary, rawConfig, false, 3600⟩

/-- tincd is started with a first text, and a SIGHUP brings a second one. -/
def sampleReload : List Act :=
  [.run .done, .run (.env (rawEnv (CStrings.ascii "[a]\n") fun _ => true)), .run (.time 1000),
   .run .done, .run .done, .run (.time 1000), .sighup, .run .done, .run .done, .run .done,
   .run .done, .run (.env (rawEnv (CStrings.ascii "[a]\nport=1\n") fun _ => true)), .run .done]

theorem commands_of_run_reload :
    ∃ t p, Run sampleSetup none t p ∧
      commands t = [.signalOldTincd, .startTincd, .restartTincd] ∧
        (∃ phase, (commands t).foldlM Phase.next .fresh = some phase) ∧
          .readFailed ∉ commands t ∧ RestartsDue (log t) ∧
            ∀ report, .fetched report ∈ log t → (report.retval = 1 ↔ Complete report) := by
  have run : Run sampleSetup none _ _ :=
    Runs.run_of_execute (show Runs.execute _ _ sampleReload = _ from rfl)
  exact ⟨_, _, run, rfl, commands_of_run sampleSetup none run⟩

end ChaosVpn.MainLoop
