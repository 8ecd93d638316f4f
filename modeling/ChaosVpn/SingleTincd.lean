import ChaosVpn.WorkerInvariant

/-! At most one tincd runs at a time, and daemon_stop signals only the process that di_pid
named when it was called. -/

namespace ChaosVpn.SingleTincd
open Runs OldDaemon Worker

/-- The processes forked by daemon_start that are alive. -/
def runningTincds (st : State) : List Child :=
  st.children.filter fun c => c.tincd && c.life == .running

/-- The activation with so many in the stack up to it calls daemon_stop. -/
def CallsDaemonStop (depth : Nat) (d : Call) : Prop :=
  d.pre.stack.length = depth ∧ topOp d.pre = some .daemonStop ∧ ∃ answer, d.input = .run answer

/-- It is not left, and does not call daemon_stop again. -/
def Continues (depth : Nat) (e : Call) : Prop :=
  depth ≤ e.pre.stack.length ∧ ¬ CallsDaemonStop depth e

/-- The last call of daemon_stop by the activation found this process in di_pid. -/
def CalledFor (depth pid : Nat) (t : List Call) : Prop :=
  Since (fun d => CallsDaemonStop depth d ∧ d.pre.diPid = some pid) (Continues depth) t

/-! Where the operations of daemon_stop come from -/

/-- The process that an operation of daemon_stop sends a signal to. -/
def target : Op → Option Nat
  | .terminate pgid | .kill pgid => some pgid
  | _ => none

def stops : Op → Bool
  | .daemonStop | .terminate _ | .kill _ => true
  | _ => false

theorem stops_of_target {op : Op} {pid : Nat} (h : target op = some pid) : stops op = true := by
  cases op <;> simp_all [target, stops]

variable {setup : Setup} {ctx ctx' : Context} {op : Op} {events : List Event} {ops : List Op}
  {st st' : State} {act : Act} {t : List Call}

/-- No activation is in two calls of daemon_stop. -/
def OneStop (st : State) : Prop := ∀ a ∈ st.stack, a.ops.countP stops ≤ 1

theorem effect_stops (h : Effect setup ctx op events ctx' ops) :
    ops.countP stops ≤ [op].countP stops := by
  cases h with
  | pclose _ hops | exitIfOneshot hops | terminate hops | restart hops =>
    rcases hops with rfl | rfl <;> simp [stops, killOldTincd, daemonStart]
  | failed hfailed => rcases hfailed with rfl | rfl <;> simp [stops]
  | _ => simp [stops, killOldTincd]

theorem oneStop_step (h : OneStop st) (hstep : Step setup st act events st') : OneStop st' := by
  cases hstep with
  | @command c =>
    refine List.forall_mem_singleton.mpr ?_
    cases c <;> decide
  | @run _ routine op rest ops below _ ctx hstack heffect =>
    have hall : OneStop st := h
    rw [OneStop, hstack, List.forall_mem_cons] at h
    refine List.forall_mem_cons.mpr ⟨?_, h.2⟩
    have hle := effect_stops heffect
    have htop := h.1
    rw [← List.singleton_append, List.countP_append] at htop
    rw [List.countP_append]
    omega
  | leave hstack =>
    rw [OneStop, hstack, List.forall_mem_cons] at h
    exact h.2
  | exits | notify => exact h
  | sigchld => exact List.forall_mem_cons.mpr ⟨by simp [stops], h⟩
  | deliver => exact List.forall_mem_cons.mpr ⟨(by decide : sigtermOps.countP stops ≤ 1), h⟩

/-- A signal to be sent goes to the process that di_pid named. -/
def Targeted (t : List Call) (st : State) : Prop :=
  ∀ above a below, st.stack = above ++ a :: below → ∀ op ∈ a.ops, ∀ pid, target op = some pid →
    CalledFor (below.length + 1) pid t

theorem effect_target (h : Effect setup ctx op events ctx' ops) :
    ∀ o ∈ ops, ∀ pid, target o = some pid →
      target op = some pid ∨ (op = .daemonStop ∧ ctx.diPid = some pid) := by
  cases h with
  | pclose _ hops | exitIfOneshot hops | terminate hops | restart hops =>
    rcases hops with rfl | rfl <;> simp [target, killOldTincd, daemonStart]
  | failed hfailed => rcases hfailed with rfl | rfl <;> simp [target]
  | daemonStop hpid => simp [target, hpid]
  | _ => simp [target, killOldTincd]

theorem depth_le {stack above below : List Activation} {a : Activation}
    (h : stack = above ++ a :: below) : below.length + 1 ≤ stack.length := by
  rw [h, List.length_append, List.length_cons]
  omega

theorem targeted_push {a : Activation} {events : List Event} (h : Targeted t st)
    (hops : ∀ op ∈ a.ops, target op = none) (hact : ∀ answer, act ≠ .run answer)
    (hstack : st'.stack = a :: st.stack) : Targeted (t ++ [⟨st, act, events, st'⟩]) st' := by
  intro above b below hsplit op hop pid htarget
  rw [hstack] at hsplit
  cases above with
  | nil =>
    rw [← (List.cons.inj hsplit).1] at hop
    rw [hops op hop] at htarget
    cases htarget
  | cons top above =>
    have hold := (List.cons.inj hsplit).2
    refine (h above b below hold op hop pid htarget).snoc ⟨depth_le hold, fun hcall => ?_⟩
    · obtain ⟨answer, hrun⟩ := hcall.2.2
      exact hact answer hrun

theorem targeted_step (h : Targeted t st) (hone : OneStop st)
    (hstep : Step setup st act events st') : Targeted (t ++ [⟨st, act, events, st'⟩]) st' := by
  cases hstep with
  | @command c phase =>
    intro above a below hsplit op hop pid htarget
    have ha : a ∈ [(⟨.loop, commandOps c⟩ : Activation)] := by
      rw [show [(⟨.loop, commandOps c⟩ : Activation)] = above ++ a :: below from hsplit]
      simp
    rw [List.mem_singleton.mp ha] at hop
    cases c <;> simp [commandOps, daemonStart, sigtermOps] at hop <;>
      rcases hop with rfl | rfl | rfl | rfl <;> cases htarget
  | @run answer routine op rest ops below _ ctx hstack heffect =>
    intro above a below' hsplit o ho pid htarget
    cases above with
    | nil =>
      obtain ⟨rfl, rfl⟩ := List.cons.inj hsplit
      have hdepth : st.stack.length = below.length + 1 := by rw [hstack]; rfl
      have htop : topOp st = some op := by rw [topOp, hstack]; rfl
      have hsnoc : ∀ o' ∈ op :: rest, target o' = some pid →
          CalledFor (below.length + 1) pid (t ++ [⟨st, .run answer, events,
            ⟨ctx, st.phase, ⟨routine, ops ++ rest⟩ :: below⟩⟩]) := by
        intro o' ho' htarget'
        refine (h [] _ below hstack o' ho' pid htarget').snoc ⟨le_of_eq hdepth.symm, fun hcall => ?_⟩
        have hop : op = .daemonStop := Option.some.inj (htop.symm.trans hcall.2.1)
        have hcount := hone _ (hstack ▸ List.mem_cons_self)
        have hstops := stops_of_target htarget'
        subst hop
        rcases List.mem_cons.mp ho' with rfl | ho'
        · cases htarget'
        · have hpos := List.countP_pos_iff.mpr ⟨o', ho', hstops⟩
          rw [List.countP_cons_of_pos (show stops .daemonStop = true from rfl)] at hcount
          omega
      rcases List.mem_append.mp ho with ho | ho
      · rcases effect_target heffect o ho pid htarget with hop | ⟨rfl, hpid⟩
        · exact hsnoc op List.mem_cons_self hop
        · exact since_snoc t ⟨⟨hdepth, htop, answer, rfl⟩, hpid⟩
      · exact hsnoc o (List.mem_cons_of_mem _ ho) htarget
    | cons top above =>
      have hold : st.stack = (⟨routine, op :: rest⟩ :: above) ++ a :: below' := by
        rw [hstack, (List.cons.inj hsplit).2]
        rfl
      refine (h _ a below' hold o ho pid htarget).snoc ⟨depth_le hold, fun hcall => ?_⟩
      · have hlength := hcall.1
        rw [hold] at hlength
        simp at hlength
        omega
  | @leave answer routine below hstack hloop =>
    intro above a below' hsplit o ho pid htarget
    have hold : st.stack = (⟨routine, []⟩ :: above) ++ a :: below' := by
      rw [hstack, show below = above ++ a :: below' from hsplit]
      rfl
    refine (h _ a below' hold o ho pid htarget).snoc ⟨depth_le hold, fun hcall => ?_⟩
    · have hlength := hcall.1
      rw [hold] at hlength
      simp at hlength
      omega
  | exits | notify =>
    intro above a below hsplit o ho pid htarget
    have hold : st.stack = above ++ a :: below := hsplit
    refine (h above a below hold o ho pid htarget).snoc ⟨depth_le hold, fun hcall => ?_⟩
    · obtain ⟨answer, hrun⟩ := hcall.2.2
      cases hrun
  | sigchld => exact targeted_push h (by simp [target]) (by simp) rfl
  | deliver => exact targeted_push h (by simp [sigtermOps, target]) (by simp) rfl

theorem targeted (run : Run setup t st) : OneStop st ∧ Targeted t st := by
  refine run.invariant (fun t st => OneStop st ∧ Targeted t st) ?_ ?_
  · refine ⟨by simp [OneStop, startState], fun above a below hsplit op hop pid _ => ?_⟩
    have ha : a ∈ [(⟨.loop, []⟩ : Activation)] := by
      rw [show [(⟨.loop, []⟩ : Activation)] = above ++ a :: below from hsplit]
      simp
    rw [List.mem_singleton.mp ha] at hop
    cases hop
  · intro t st act events st' _ h hstep
    have hstep := (step_cases hstep).2
    exact ⟨oneStop_step h.1 hstep, targeted_step h.2 h.1 hstep⟩

/-- A signal is sent by the first operation of the running activation. -/
theorem kill_target {pid : Nat} {sig : Signal} (hstep : Step setup st act events st')
    (hkill : .kill pid sig ∈ events) :
    ∃ routine op rest below, st.stack = ⟨routine, op :: rest⟩ :: below ∧ target op = some pid := by
  cases hstep with
  | @run _ routine op rest _ below _ _ hstack heffect =>
    refine ⟨routine, op, rest, below, hstack, ?_⟩
    cases heffect <;> simp_all [target]
  | _ => cases hkill

theorem single_tincd (setup : Setup) {t : List Call} {st : State} (run : Run setup t st) :
    (runningTincds st).length ≤ 1 ∧
      ∀ before c after pid sig, t = before ++ c :: after → .kill pid sig ∈ c.out →
        CalledFor c.pre.stack.length pid before := by
  constructor
  · have hsingle := (sound run).single
    have hle : (runningTincds st).length ≤ st.tincds := by
      rw [runningTincds, ← List.countP_eq_length_filter, Context.tincds]
      exact List.countP_mono_left fun c _ hc => (Bool.and_eq_true_iff.mp hc).1
    omega
  · intro before c after pid sig ht hkill
    obtain ⟨hbefore, hstep⟩ := run.split ht
    obtain ⟨routine, op, rest, below, hstack, htarget⟩ := kill_target (step_cases hstep).2 hkill
    have hcalled := (targeted hbefore).2 [] _ below hstack op List.mem_cons_self pid htarget
    rw [hstack]
    exact hcalled

theorem single_tincd_sample :
    (runningTincds (executed sampleSetup sampleRestart).2).length ≤ 1 ∧
      ∀ before c after pid sig, (executed sampleSetup sampleRestart).1 = before ++ c :: after →
        .kill pid sig ∈ c.out → CalledFor c.pre.stack.length pid before :=
  single_tincd sampleSetup (executed_run (by decide +kernel))

end ChaosVpn.SingleTincd
