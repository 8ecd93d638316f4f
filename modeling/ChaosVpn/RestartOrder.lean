import ChaosVpn.WorkerInvariant

/-! HANDLER_RESTART_TINCD: the order of the tinc-down scripts of a restart and of the start
of the new tincd. -/

namespace ChaosVpn.RestartOrder
open Runs OldDaemon Worker

def IsRestart (c : Call) : Prop := c.input = .command .restartTincd

def NoCommand (c : Call) : Prop := ∀ k, c.input ≠ .command k

def isCommand : Act → Bool
  | .command _ => true
  | _ => false

theorem noCommand {c : Call} (h : isCommand c.input = false) : NoCommand c := by
  intro k hk
  rw [hk] at h
  cases h

def Forks (pid : Nat) (c : Call) : Prop := .forked pid ∈ c.out

/-- sigchild takes the tincd that is to be restarted, and the loop has still to run the
tinc-down of the restart. -/
def Overtaken (c : Call) : Prop :=
  ∃ pid, c.input = .run (.pid pid) ∧ topOp c.pre = some .waitpid ∧ c.pre.diPid = some pid ∧
    ∃ a ∈ c.pre.stack, a.routine = .loop ∧ a.ops.getLast? = some .tincInvokeIfdown

/-! The operations of the loop and of sigchild -/

/-- What the loop has still to do at a point of a restart. -/
inductive Restarting : List Op → Prop
  | stop : Restarting [.daemonStop, .tincInvokeIfdown]
  | terminate {pgid : Nat} : Restarting [.terminate pgid, .tincInvokeIfdown]
  | sleep {pgid : Nat} : Restarting [.sleep, .kill pgid, .tincInvokeIfdown]
  | kill {pgid : Nat} : Restarting [.kill pgid, .tincInvokeIfdown]
  | ifdown : Restarting [.tincInvokeIfdown]
  | system {pid : Nat} : Restarting [.system pid]
  | done : Restarting []

/-- The operations of a start behind the script. -/
def reviving : Op → Bool
  | .sleep | .pipe | .fork | .setPid _ | .exit _ => true
  | _ => false

/-- What sigchild has still to do. -/
inductive Reviving : List Op → Prop
  | wait : Reviving [.waitpid]
  | ifdown {fatal : Bool} : Reviving [.tincInvokeIfdown, .restart fatal]
  | system {pid : Nat} {fatal : Bool} : Reviving [.system pid, .restart fatal]
  | restart {fatal : Bool} : Reviving [.restart fatal]
  | start {ops : List Op} : (∀ op ∈ ops, reviving op = true) → Reviving ops

variable {setup : Setup} {ctx ctx' : Context} {op : Op} {events : List Event} {ops rest : List Op}
  {st st' : State} {act : Act} {t : List Call}

theorem Restarting.effect (h : Restarting (op :: rest))
    (heffect : Effect setup ctx op events ctx' ops) : Restarting (ops ++ rest) := by
  cases h with
  | stop =>
    cases heffect with
    | noDaemon => exact .ifdown
    | daemonStop => exact .terminate
    | failed hfailed => rcases hfailed with h | h <;> cases h
  | terminate =>
    cases heffect with
    | terminate hops =>
      rcases hops with rfl | rfl
      · exact .ifdown
      · exact .sleep
    | failed hfailed => rcases hfailed with h | h <;> cases h
  | sleep =>
    cases heffect with
    | sleep => exact .kill
    | failed hfailed => rcases hfailed with h | h <;> cases h
  | kill =>
    cases heffect with
    | kill => exact .ifdown
    | failed hfailed => rcases hfailed with h | h <;> cases h
  | ifdown =>
    cases heffect with
    | script => exact .system
    | noScript => exact .done
    | failed hfailed => rcases hfailed with h | h <;> cases h
  | system =>
    cases heffect with
    | system => exact .done
    | failed hfailed => rcases hfailed with h | h <;> cases h

theorem effect_reviving (h : Effect setup ctx op events ctx' ops) (hop : reviving op = true) :
    ∀ o ∈ ops, reviving o = true := by
  cases h with
  | pclose _ hops | exitIfOneshot hops | terminate hops | restart hops => cases hop
  | failed hfailed => simp [reviving]
  | _ => simp_all [reviving]

theorem Reviving.effect (h : Reviving (op :: rest))
    (heffect : Effect setup ctx op events ctx' ops) : Reviving (ops ++ rest) := by
  cases h with
  | wait =>
    cases heffect with
    | reaped => exact .ifdown
    | unknown | noChild => exact .start (by simp)
    | failed hfailed => rcases hfailed with h | h <;> cases h
  | ifdown =>
    cases heffect with
    | script => exact .system
    | noScript => exact .restart
    | failed hfailed => rcases hfailed with h | h <;> cases h
  | system =>
    cases heffect with
    | system => exact .restart
    | failed hfailed => rcases hfailed with h | h <;> cases h
  | restart =>
    cases heffect with
    | fatal => exact .start (by simp [reviving])
    | restart hops => rcases hops with rfl | rfl <;> exact .start (by simp [reviving, daemonStart])
    | failed hfailed => rcases hfailed with h | h <;> cases h
  | start hall =>
    obtain ⟨hop, hrest⟩ := List.forall_mem_cons.mp hall
    refine .start fun o ho => ?_
    rcases List.mem_append.mp ho with ho | ho
    · exact effect_reviving heffect hop o ho
    · exact hrest o ho

theorem Restarting.no_starts (h : Restarting ops) : ops.countP Op.starts = 0 := by
  cases h <;> rfl

theorem Restarting.last (h : Restarting ops) (hne : ops ≠ [])
    (hsystem : ∀ pid, ops.head? ≠ some (.system pid)) :
    ops.getLast? = some .tincInvokeIfdown := by
  cases h with
  | @system pid => exact absurd rfl (hsystem pid)
  | done => exact absurd rfl hne
  | _ => rfl

/-- A script of sigchild has the start of a tincd behind it. -/
theorem Reviving.starts (h : Reviving ops) {pid : Nat} (hhead : ops.head? = some (.system pid)) :
    0 < ops.countP Op.starts := by
  cases h with
  | system => simp [Op.starts]
  | start hall =>
    have hsystem := hall _ (List.mem_of_mem_head? hhead)
    cases hsystem
  | _ => cases hhead

def Revives (st : State) : Prop := ∀ a ∈ st.stack, a.routine = .sigchild → Reviving a.ops

theorem revives_step (h : Revives st) (hstep : Step setup st act events st') : Revives st' := by
  cases hstep with
  | command => simp [Revives]
  | @run _ routine op rest ops below _ ctx hstack heffect =>
    rw [Revives, hstack, List.forall_mem_cons] at h
    exact List.forall_mem_cons.mpr ⟨fun hr => (h.1 hr).effect heffect, h.2⟩
  | leave hstack =>
    rw [Revives, hstack, List.forall_mem_cons] at h
    exact h.2
  | exits | notify => exact h
  | sigchld => exact List.forall_mem_cons.mpr ⟨fun _ => .wait, h⟩
  | deliver hr => exact List.forall_mem_cons.mpr ⟨by rcases hr with rfl | rfl <;> simp, h⟩

theorem revives (run : Run setup t st) : Revives st := by
  refine run.invariant (fun _ => Revives) (by simp [Revives, startState]) ?_
  intro t st act events st' _ h hstep
  exact revives_step h (step_cases hstep).2

/-! No start before the script of the restart -/

/-- Since the restart was read, the loop does what is left of it, and as long as it is not
done with it no tincd is started. -/
def Ordered (t : List Call) (st : State) : Prop :=
  ∀ before r mid, t = before ++ r :: mid → IsRestart r → (∀ c ∈ mid, NoCommand c) →
    ∀ a ∈ st.stack, a.routine = .loop → Restarting a.ops ∧
      (a.ops ≠ [] → pendingStarts st.stack = 0 ∧ ∀ c ∈ mid, ∀ pid, ¬ Forks pid c)

theorem ordered_silent (h : Ordered t st) (hstack : ∀ a ∈ st'.stack,
      a.routine = .loop → a ∈ st.stack)
    (hcount : pendingStarts st'.stack = pendingStarts st.stack)
    (hcommand : ∀ k, act ≠ .command k) : Ordered (t ++ [⟨st, act, [], st'⟩]) st' := by
  intro before r mid ht hr hmid a ha hloop
  rcases snoc_split ht with ⟨-, rfl, -⟩ | ⟨mid', ht', rfl⟩
  · exact absurd hr (hcommand _)
  · obtain ⟨hrestarting, hquiet⟩ := h before r mid' ht' hr (fun c hc => hmid c (by simp [hc])) a
      (hstack a ha hloop) hloop
    refine ⟨hrestarting, fun hne => ?_⟩
    obtain ⟨hstarts, hforks⟩ := hquiet hne
    refine ⟨hcount.trans hstarts, fun c hc pid => ?_⟩
    rcases List.mem_append.mp hc with hc | hc
    · exact hforks c hc pid
    · rw [List.mem_singleton.mp hc]
      simp [Forks]

theorem ordered_step (hsound : Sound st) (h : Ordered t st)
    (hstep : step setup st act = some (events, st'))
    (hcond : ¬ Overtaken ⟨st, act, events, st'⟩) :
    Ordered (t ++ [⟨st, act, events, st'⟩]) st' := by
  have hinput : ∀ pid, .reaped pid ∈ events → act = .run (.pid pid) ∧ topOp st = some .waitpid :=
    fun pid hreaped => reaped_input hstep hreaped
  cases (step_cases hstep).2 with
  | @command c phase hstack =>
    intro before r mid ht hr hmid a ha hloop
    rcases snoc_split ht with ⟨-, rfl, rfl⟩ | ⟨mid', -, rfl⟩
    · cases hr
      obtain rfl := List.mem_singleton.mp ha
      exact ⟨.stop, fun _ => ⟨rfl, by simp⟩⟩
    · exact absurd rfl (hmid _ (List.mem_append_right mid' List.mem_cons_self) c)
  | @run answer routine op rest ops below _ ctx hstack heffect =>
    intro before r mid ht hr hmid a ha hloop
    rcases snoc_split ht with ⟨-, rfl, -⟩ | ⟨mid', ht', rfl⟩
    · cases hr
    have hold := h before r mid' ht' hr fun c hc => hmid c (by simp [hc])
    have hforks : (∀ c ∈ mid', ∀ pid, ¬ Forks pid c) → op.starts = false →
        ∀ c ∈ mid' ++ [⟨st, .run answer, events, ⟨ctx, st.phase, ⟨routine, ops ++ rest⟩ :: below⟩⟩],
          ∀ pid, ¬ Forks pid c := by
      intro hmid' hop c hc pid
      rcases List.mem_append.mp hc with hc | hc
      · exact hmid' c hc pid
      · rw [List.mem_singleton.mp hc]
        exact heffect.no_fork hop pid
    rcases List.mem_cons.mp ha with rfl | ha
    · have hloop : routine = .loop := hloop
      subst hloop
      obtain rfl := hsound.below_nil hstack
      obtain ⟨hrestarting, hquiet⟩ := hold _ (hstack ▸ List.mem_cons_self) rfl
      have hnew := hrestarting.effect heffect
      have hop : op.starts = false := by
        have hnone := hrestarting.no_starts
        rw [List.countP_eq_zero] at hnone
        exact Bool.eq_false_iff.mpr (hnone op List.mem_cons_self)
      refine ⟨hnew, fun _ => ⟨?_, hforks (hquiet (List.cons_ne_nil _ _)).2 hop⟩⟩
      rw [pendingStarts_cons]
      exact hnew.no_starts
    · have haold : a ∈ st.stack := hstack ▸ List.mem_cons_of_mem _ ha
      obtain ⟨hrestarting, hquiet⟩ := hold a haold hloop
      refine ⟨hrestarting, fun hne => ?_⟩
      obtain ⟨hstarts, hmid'⟩ := hquiet hne
      rw [hstack, pendingStarts_cons] at hstarts
      have hop : op.starts = false := by
        cases hop : op.starts with
        | false => rfl
        | true =>
          rw [List.countP_cons_of_pos hop] at hstarts
          omega
      refine ⟨?_, hforks hmid' hop⟩
      rw [List.countP_cons_of_neg (by simp [hop])] at hstarts
      rw [pendingStarts_cons, List.countP_append]
      rcases heffect.starts hop with hnone | ⟨pid, rfl, hreaped, hpid⟩
      · omega
      · obtain ⟨hact, htop⟩ := hinput pid hreaped
        have hsystem := hsound.not_inSystem (hstack ▸ List.mem_cons_self) List.mem_cons_self a haold
        refine absurd ⟨pid, hact, htop, hpid, a, haold, hloop, ?_⟩ hcond
        refine hrestarting.last hne fun script hhead => ?_
        rw [inSystem_iff.mpr ⟨script, hhead⟩] at hsystem
        cases hsystem
  | leave hstack hloop =>
    refine ordered_silent h (fun a ha _ => hstack ▸ List.mem_cons_of_mem _ ha) ?_ (by simp)
    rw [hstack, pendingStarts_cons]
    simp
  | exits | notify => exact ordered_silent h (fun a ha _ => ha) rfl (by simp)
  | sigchld =>
    refine ordered_silent h (fun a ha hloop => ?_) (pendingStarts_cons _ _ |>.trans ?_) (by simp)
    · rcases List.mem_cons.mp ha with rfl | ha
      · cases hloop
      · exact ha
    · simp [Op.starts]
  | deliver hr =>
    refine ordered_silent h (fun a ha hloop => ?_) (pendingStarts_cons _ _ |>.trans ?_) (by simp)
    · rcases List.mem_cons.mp ha with rfl | ha
      · rcases hr with rfl | rfl <;> cases hloop
      · exact ha
    · simp [sigtermOps, Op.starts]

/-- No tinc-down runs together with a tincd that the last restart has started. -/
def DownBeforeUp (t : List Call) (st : State) : Prop :=
  ∀ before r mid, t = before ++ r :: mid → IsRestart r → (∀ c ∈ mid, NoCommand c) →
    inSystem st.stack = true → ∀ child ∈ st.children, child.tincd = true →
      child.life = .running → ∀ c ∈ mid, ¬ Forks child.pid c

/-- It does not where no SIGCHLD takes the tincd before the tinc-down of its restart has
begun. -/
theorem ifdown_before_start (setup : Setup) {t : List Call} {st : State} (run : Run setup t st)
    (hcond : ∀ c ∈ t, ¬ Overtaken c) : DownBeforeUp t st := by
  intro before r mid ht hr hmid hsystem child hchild htincd _ c hc
  have hordered : (∀ c ∈ t, ¬ Overtaken c) → Ordered t st := by
    refine run.invariant (fun t st => (∀ c ∈ t, ¬ Overtaken c) → Ordered t st) ?_ ?_
    · intro _ before r mid ht
      simp at ht
    · intro t st act events st' hrun ih hstep hcond
      exact ordered_step (sound hrun) (ih fun c hc => hcond c (by simp [hc])) hstep
        (hcond _ (by simp))
  obtain ⟨a, ha, hin⟩ := List.any_eq_true.mp hsystem
  obtain ⟨pid, hhead⟩ := inSystem_iff.mp hin
  have hne : a.ops ≠ [] := by
    rintro hnil
    rw [hnil] at hhead
    cases hhead
  have hdoes := (sound run).does a ha _ (List.mem_of_mem_head? hhead)
  cases hroutine : a.routine with
  | loop => exact ((hordered hcond before r mid ht hr hmid a ha hroutine).2 hne).2 c hc child.pid
  | sigchild =>
    have hstarts : 0 < pendingStarts st.stack := by
      obtain ⟨op, hop, hop'⟩ := List.countP_pos_iff.mp ((revives run a ha hroutine).starts hhead)
      exact List.countP_pos_iff.mpr ⟨op, List.mem_flatMap.mpr ⟨a, ha, hop⟩, hop'⟩
    have htincds : 0 < st.tincds := List.countP_pos_iff.mpr ⟨child, hchild, htincd⟩
    have hsingle := (sound run).single
    omega
  | sigterm | sigint =>
    rw [hroutine] at hdoes
    cases hdoes

/-- The tincd 102 has been started in the sleep of daemon_stop when the loop goes on to the
tinc-down of the restart. -/
def sampleOvertaken : List Act := sampleRestart ++ [.run (.pid 103)]

theorem ifdown_after_start :
    Run sampleSetup (executed sampleSetup sampleOvertaken).1
        (executed sampleSetup sampleOvertaken).2 ∧
      ¬ DownBeforeUp (executed sampleSetup sampleOvertaken).1
        (executed sampleSetup sampleOvertaken).2 := by
  have hlength : 7 < (executed sampleSetup sampleOvertaken).1.length := by decide
  have hinput : (executed sampleSetup sampleOvertaken).1[7]?.map Call.input =
      some (.command .restartTincd) := by
    decide
  rw [List.getElem?_eq_getElem hlength] at hinput
  have hrestart : IsRestart (executed sampleSetup sampleOvertaken).1[7] := Option.some.inj hinput
  have hmid : ∀ c ∈ (executed sampleSetup sampleOvertaken).1.drop 8, isCommand c.input = false := by
    decide
  have hforks : ∃ c ∈ (executed sampleSetup sampleOvertaken).1.drop 8, .forked 102 ∈ c.out := by
    decide
  have hrunning : ⟨102, true, .running⟩ ∈ (executed sampleSetup sampleOvertaken).2.children := by
    decide
  have hsplit : (executed sampleSetup sampleOvertaken).1 =
      (executed sampleSetup sampleOvertaken).1.take 7 ++
        (executed sampleSetup sampleOvertaken).1[7] ::
          (executed sampleSetup sampleOvertaken).1.drop 8 := by
    rw [← List.drop_eq_getElem_cons hlength, List.take_append_drop]
  refine ⟨executed_run (by decide), fun hdown => ?_⟩
  obtain ⟨c, hc, hforked⟩ := hforks
  exact hdown _ _ _ hsplit hrestart (fun d hd => noCommand (hmid d hd)) (by decide) _
    hrunning rfl rfl c hc hforked

/-- The tincd 100 ends in the sleep of daemon_stop, and the tinc-down runs before SIGCHLD is
delivered. -/
def sampleOrdered : List Act :=
  sampleStart ++
  [.command .restartTincd, .run .done, .run .done, .run .done, .run .done, .exits 100 false,
   .run (.pid 101)]

theorem ifdown_before_start_sample :
    DownBeforeUp (executed sampleSetup sampleOrdered).1
      (executed sampleSetup sampleOrdered).2 := by
  refine ifdown_before_start sampleSetup (executed_run (by decide)) fun c hc => ?_
  have hwait : ∀ c ∈ (executed sampleSetup sampleOrdered).1, topOp c.pre ≠ some .waitpid := by
    decide
  rintro ⟨pid, -, htop, -⟩
  exact hwait c hc htop

end ChaosVpn.RestartOrder
