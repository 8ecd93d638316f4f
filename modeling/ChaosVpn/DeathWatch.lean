import ChaosVpn.WorkerInvariant

/-! The death of a tincd: sigchild finds out about it as long as di_pid names the process
by then. -/

namespace ChaosVpn.DeathWatch
open Runs OldDaemon Worker

/-- sigchild takes the tincd that HANDLER_START_TINCD has forked before daemon_start has
stored its pid. -/
def TakenUnrecorded (c : Call) : Prop :=
  ∃ pid, c.input = .run (.pid pid) ∧ topOp c.pre = some .waitpid ∧
    ∃ a ∈ c.pre.stack, a.routine = .loop ∧ a.ops.head? = some (.setPid pid)

def Forked (t : List Call) : Prop := ∃ c ∈ t, ∃ pid, .forked pid ∈ c.out

/-! One start at a time -/

/-- The operations of daemon_start up to the assignment. -/
def launches (op : Op) : Bool := op.starts || op.setsPid

def pendingLaunches (stack : List Activation) : Nat :=
  (stack.flatMap Activation.ops).countP launches

theorem pendingLaunches_cons (a : Activation) (stack : List Activation) :
    pendingLaunches (a :: stack) = a.ops.countP launches + pendingLaunches stack := by
  simp [pendingLaunches]

variable {setup : Setup} {ctx ctx' : Context} {op : Op} {events : List Event} {ops rest : List Op}
  {st st' : State} {act : Act} {t : List Call}

theorem effect_launches (h : Effect setup ctx op events ctx' ops) :
    ops.countP launches ≤ [op].countP launches ∨
      (op = .waitpid ∧ ctx.diPid.isSome = true ∧ ops.countP launches = 1) := by
  cases h with
  | reaped _ _ hpid => exact .inr ⟨rfl, by rw [hpid]; rfl, rfl⟩
  | pclose _ hops | exitIfOneshot hops | terminate hops | restart hops =>
    left
    rcases hops with rfl | rfl <;> simp [launches, Op.starts, Op.setsPid, killOldTincd, daemonStart]
  | failed hfailed => left; simp [launches, Op.starts, Op.setsPid]
  | _ => left; simp [launches, Op.starts, Op.setsPid, killOldTincd]

/-- Only the loop starts a tincd while di_pid names none, and only sigchild does later. -/
structure Launching (st : State) : Prop where
  single : pendingLaunches st.stack ≤ 1
  first : ∀ a ∈ st.stack, ∀ op ∈ a.ops, launches op = true →
    (st.diPid = none ↔ a.routine = .loop)

theorem launching_start : Launching startState := ⟨by decide, by simp [startState]⟩

theorem pendingLaunches_pos {stack : List Activation} {a : Activation} (ha : a ∈ stack)
    (hop : op ∈ a.ops) (hlaunches : launches op = true) : 0 < pendingLaunches stack :=
  List.countP_pos_iff.mpr ⟨op, List.mem_flatMap.mpr ⟨a, ha, hop⟩, hlaunches⟩

theorem Launching.push (h : Launching st) {a : Activation} {pending : Bool}
    (ha : ∀ op ∈ a.ops, launches op = false) :
    Launching { st with pending, stack := a :: st.stack } := by
  have hcount : a.ops.countP launches = 0 :=
    List.countP_eq_zero.mpr fun op hop => by simp [ha op hop]
  refine ⟨?_, List.forall_mem_cons.mpr ⟨fun op hop hlaunches => ?_, h.first⟩⟩
  · change pendingLaunches (a :: st.stack) ≤ 1
    rw [pendingLaunches_cons, hcount, Nat.zero_add]
    exact h.single
  · rw [ha op hop] at hlaunches
    cases hlaunches

/-- Nothing is launched while sigchild waits and di_pid names a process. -/
theorem Launching.none_waiting (h : Launching st) (hsound : Sound st) {a : Activation}
    (ha : a ∈ st.stack) (hwait : .waitpid ∈ a.ops) (hpid : st.diPid.isSome = true) :
    pendingLaunches st.stack = 0 := by
  rw [pendingLaunches, List.countP_eq_zero]
  intro op hop hlaunches
  obtain ⟨b, hb, hop⟩ := List.mem_flatMap.mp hop
  have hwaiter : a.routine = .sigchild := hsound.waiter ha hwait
  have hdoes := hsound.does b hb op hop
  cases hroutine : b.routine with
  | loop =>
    rw [(h.first b hb op hop hlaunches).mpr hroutine] at hpid
    cases hpid
  | sigchild =>
    have hsame : a = b := List.inj_on_of_nodup_map hsound.routines ha hb
      (hwaiter.trans hroutine.symm)
    rw [← hsame, hsound.waits a ha hwait, List.mem_singleton] at hop
    rw [hop] at hlaunches
    cases hlaunches
  | sigterm | sigint =>
    rw [hroutine] at hdoes
    cases op <;> simp_all [launches, Op.starts, Op.setsPid, Routine.does]

theorem launching_run {routine : Routine} {below : List Activation} (hsound : Sound st)
    (h : Launching st) (hstack : st.stack = ⟨routine, op :: rest⟩ :: below)
    (heffect : Effect setup st.toContext op events ctx ops) :
    Launching ⟨ctx, st.phase, ⟨routine, ops ++ rest⟩ :: below⟩ := by
  have htop : (⟨routine, op :: rest⟩ : Activation) ∈ st.stack := hstack ▸ List.mem_cons_self
  have hbelow : ∀ a ∈ below, a ∈ st.stack := fun a ha => hstack ▸ List.mem_cons_of_mem _ ha
  have hsingle := h.single
  have hold : pendingLaunches st.stack =
      [op].countP launches + (rest.countP launches + pendingLaunches below) := by
    rw [hstack, pendingLaunches_cons, ← List.singleton_append, List.countP_append, Nat.add_assoc]
  have hnew : pendingLaunches (⟨routine, ops ++ rest⟩ :: below) =
      ops.countP launches + (rest.countP launches + pendingLaunches below) := by
    rw [pendingLaunches_cons, List.countP_append, Nat.add_assoc]
  have hnone : op = .waitpid → st.diPid.isSome = true → pendingLaunches st.stack = 0 :=
    fun hop => h.none_waiting hsound htop (hop ▸ List.mem_cons_self)
  refine ⟨?_, fun a ha o ho hlaunches => ?_⟩
  · change pendingLaunches (⟨routine, ops ++ rest⟩ :: below) ≤ 1
    rcases effect_launches heffect with hle | ⟨hop, hpid, hone⟩
    · omega
    · have hzero := hnone hop hpid
      omega
  · cases hset : op.setsPid with
    | true =>
      have hpos : 0 < pendingLaunches (⟨routine, ops ++ rest⟩ :: below) :=
        pendingLaunches_pos ha ho hlaunches
      have hzero : ops.countP launches = 0 := by
        cases heffect with
        | setPid => rfl
        | failed hfailed => rcases hfailed with rfl | rfl <;> cases hset
        | _ => cases hset
      have hop : [op].countP launches = 1 := by simp [launches, hset]
      omega
    | false =>
      have hdiPid : ctx.diPid = st.diPid := heffect.diPid hset
      change ctx.diPid = none ↔ a.routine = .loop
      rw [hdiPid]
      rcases List.mem_cons.mp ha with rfl | ha
      · rcases List.mem_append.mp ho with ho | ho
        · have hpos : 0 < ops.countP launches := List.countP_pos_iff.mpr ⟨o, ho, hlaunches⟩
          rcases effect_launches heffect with hle | ⟨rfl, hpid, -⟩
          · have hop : launches op = true := by
              obtain ⟨op', hmem, hop'⟩ := List.countP_pos_iff.mp (Nat.lt_of_lt_of_le hpos hle)
              rwa [List.mem_singleton.mp hmem] at hop'
            exact h.first ⟨routine, op :: rest⟩ htop op List.mem_cons_self hop
          · have hwaiter : routine = .sigchild := hsound.waiter htop List.mem_cons_self
            refine iff_of_false (fun hnone => ?_) (by simp [hwaiter])
            rw [hnone] at hpid
            cases hpid
        · exact h.first ⟨routine, op :: rest⟩ htop o (List.mem_cons_of_mem _ ho) hlaunches
      · exact h.first a (hbelow a ha) o ho hlaunches

theorem launching_step (hsound : Sound st) (h : Launching st)
    (hstep : Step setup st act events st') : Launching st' := by
  cases hstep with
  | @command c phase hstack hphase =>
    refine ⟨?_, fun a ha op hop hlaunches => ?_⟩
    · change pendingLaunches [⟨.loop, commandOps c⟩] ≤ 1
      cases c <;> decide
    · obtain rfl := List.mem_singleton.mp ha
      refine iff_of_true ?_ rfl
      cases c with
      | startTincd => exact (hsound.unstarted (.inr (next_start hphase))).diPid
      | _ =>
        simp [commandOps, sigtermOps] at hop
        rcases hop with rfl | rfl | rfl | rfl <;> cases hlaunches
  | run hstack heffect => exact launching_run hsound h hstack heffect
  | @leave _ routine below hstack =>
    have hbelow : ∀ a ∈ below, a ∈ st.stack := fun a ha => hstack ▸ List.mem_cons_of_mem _ ha
    refine ⟨?_, fun a ha => h.first a (hbelow a ha)⟩
    have hsingle := h.single
    rw [hstack, pendingLaunches_cons] at hsingle
    exact Nat.le_trans (Nat.le_add_left _ _) hsingle
  | @exits pid fatal =>
    have hdiPid : (st.toContext.childExits pid fatal).diPid = st.diPid := by
      rw [Context.childExits]
      split <;> rfl
    exact ⟨h.single, fun a ha op hop hlaunches => hdiPid ▸ h.first a ha op hop hlaunches⟩
  | notify => exact ⟨h.single, h.first⟩
  | sigchld => exact h.push (by simp [launches, Op.starts, Op.setsPid])
  | deliver => exact h.push (by simp [sigtermOps, launches, Op.starts, Op.setsPid])

theorem launching (run : Run setup t st) : Launching st := by
  refine run.invariant (fun _ => Launching) launching_start ?_
  intro t st act events st' hrun h hstep
  exact launching_step (sound hrun) h (step_cases hstep).2

/-! The processes of system() -/

/-- system() waits for a process that is no tincd. -/
structure ScriptPids (st : State) : Prop where
  tails : ∀ a ∈ st.stack, ∀ pid, .system pid ∉ a.ops.tail
  owned : ∀ a ∈ st.stack, ∀ pid, a.ops.head? = some (.system pid) →
    ∀ c ∈ st.children, c.pid = pid → c.tincd = false

theorem effect_tail (h : Effect setup ctx op events ctx' ops) (pid : Nat) :
    .system pid ∉ ops.tail := by
  cases h with
  | pclose _ hops | exitIfOneshot hops | terminate hops | restart hops =>
    rcases hops with rfl | rfl <;> simp [killOldTincd, daemonStart]
  | _ => simp [killOldTincd]

theorem effect_system (h : Effect setup ctx op events ctx' ops) {pid : Nat}
    (hhead : ops.head? = some (.system pid)) : ctx.fresh pid = true ∧ ctx' = ctx.fork pid false := by
  cases h with
  | script _ hfresh =>
    cases hhead
    exact ⟨hfresh, rfl⟩
  | pclose _ hops | exitIfOneshot hops | terminate hops | restart hops =>
    rcases hops with rfl | rfl <;> cases hhead
  | _ => cases hhead

theorem effect_tincd (h : Effect setup ctx op events ctx' ops) {c : Child}
    (hc : c ∈ ctx'.children) (htincd : c.tincd = true) : c ∈ ctx.children ∨ op = .fork := by
  cases h with
  | fork => exact .inr rfl
  | pidCommand | script =>
    rcases mem_fork.mp hc with hc | rfl
    · exact .inl hc
    · cases htincd
  | pclose | reaped | unknown => exact .inl (mem_reap.mp hc).1
  | system _ hleft => rcases hleft with rfl | rfl <;> exact .inl (mem_reap.mp hc).1
  | _ => exact .inl hc

variable {routine : Routine} {below : List Activation}

theorem scriptPids_run (hsound : Sound st) (h : ScriptPids st)
    (hstack : st.stack = ⟨routine, op :: rest⟩ :: below)
    (heffect : Effect setup st.toContext op events ctx ops) :
    ScriptPids ⟨ctx, st.phase, ⟨routine, ops ++ rest⟩ :: below⟩ := by
  have htop : (⟨routine, op :: rest⟩ : Activation) ∈ st.stack := hstack ▸ List.mem_cons_self
  have hbelow : ∀ a ∈ below, a ∈ st.stack := fun a ha => hstack ▸ List.mem_cons_of_mem _ ha
  have hrest : ∀ pid, .system pid ∉ rest := h.tails _ htop
  refine ⟨List.forall_mem_cons.mpr ⟨fun pid hmem => ?_, fun a ha => h.tails a (hbelow a ha)⟩,
    List.forall_mem_cons.mpr ⟨fun pid hhead c hc hpid => ?_, fun a ha pid hhead c hc hpid => ?_⟩⟩
  · cases ops with
    | nil => exact hrest pid (List.mem_of_mem_tail hmem)
    | cons o ops =>
      rcases List.mem_append.mp hmem with hmem | hmem
      · exact effect_tail heffect pid hmem
      · exact hrest pid hmem
  · cases ops with
    | nil => exact absurd (List.mem_of_mem_head? hhead) (hrest pid)
    | cons o ops =>
      obtain ⟨hfresh, hfork⟩ := effect_system heffect hhead
      have hc : c ∈ (st.toContext.fork pid false).children := hfork ▸ hc
      rcases mem_fork.mp hc with hc | rfl
      · have hne := List.all_eq_true.mp hfresh c hc
        simp [hpid] at hne
      · rfl
  · cases htincd : c.tincd with
    | false => rfl
    | true =>
      rcases effect_tincd heffect hc htincd with hold | rfl
      · rw [h.owned a (hbelow a ha) pid hhead c hold hpid] at htincd
        exact htincd.symm
      · have hsystem : a.inSystem = true := inSystem_iff.mpr ⟨pid, hhead⟩
        have htopDoes := hsound.does _ htop .fork List.mem_cons_self
        have hdoes := hsound.does a (hbelow a ha) _ (List.mem_of_mem_head? hhead)
        have hroutines := hsound.routines
        rw [hstack, List.map_cons, List.nodup_cons] at hroutines
        cases routine with
        | loop =>
          rw [hsound.below_nil hstack] at ha
          cases ha
        | sigchild =>
          cases hroutine : a.routine with
          | loop =>
            have hactive := active_iff.mpr ⟨_, htop, rfl⟩
            rw [hsound.exclusive hactive a (hbelow a ha) hroutine] at hsystem
            cases hsystem
          | sigchild => exact absurd (List.mem_map.mpr ⟨a, ha, hroutine⟩) hroutines.1
          | sigterm | sigint =>
            rw [hroutine] at hdoes
            cases hdoes
        | sigterm | sigint => cases htopDoes

theorem ScriptPids.push (h : ScriptPids st) {a : Activation} {pending : Bool}
    (ha : ∀ pid, .system pid ∉ a.ops) :
    ScriptPids { st with pending, stack := a :: st.stack } :=
  ⟨List.forall_mem_cons.mpr ⟨fun pid hmem => ha pid (List.mem_of_mem_tail hmem), h.tails⟩,
    List.forall_mem_cons.mpr
      ⟨fun pid hhead => absurd (List.mem_of_mem_head? hhead) (ha pid), h.owned⟩⟩

theorem scriptPids_step (hsound : Sound st) (h : ScriptPids st)
    (hstep : Step setup st act events st') : ScriptPids st' := by
  cases hstep with
  | @command c =>
    refine ⟨List.forall_mem_singleton.mpr fun pid => ?_,
      List.forall_mem_singleton.mpr fun pid hhead => ?_⟩
    · cases c <;> simp [commandOps, daemonStart, sigtermOps]
    · cases c <;> cases hhead
  | run hstack heffect => exact scriptPids_run hsound h hstack heffect
  | @leave _ routine below hstack =>
    have hbelow : ∀ a ∈ below, a ∈ st.stack := fun a ha => hstack ▸ List.mem_cons_of_mem _ ha
    exact ⟨fun a ha => h.tails a (hbelow a ha), fun a ha => h.owned a (hbelow a ha)⟩
  | exits =>
    refine ⟨h.tails, fun a ha pid hhead c hc hpid => ?_⟩
    obtain ⟨d, hd, hdpid, htincd⟩ := mem_childExits hc
    exact htincd.symm.trans (h.owned a ha pid hhead d hd (hdpid.trans hpid))
  | notify => exact ⟨h.tails, h.owned⟩
  | sigchld => exact h.push (by simp)
  | deliver => exact h.push (by simp [sigtermOps])

theorem scriptPids (run : Run setup t st) : ScriptPids st := by
  refine run.invariant (fun _ => ScriptPids) ⟨by simp [startState], by simp [startState]⟩ ?_
  intro t st act events st' hrun h hstep
  exact scriptPids_step (sound hrun) h (step_cases hstep).2

/-! A tincd that nobody forgets -/

/-- A tincd that has not been waited for. Its pid is in di_pid or about to be stored there,
and if it has ended, SIGCHLD is pending or being handled. -/
structure Known (st : State) (c : Child) : Prop where
  child : c ∈ st.children
  tincd : c.tincd = true
  recorded : st.diPid = some c.pid ∨ ∃ a ∈ st.stack, a.ops.head? = some (.setPid c.pid)
  expected : ∀ a ∈ st.stack, ∀ pid, .setPid pid ∈ a.ops → pid = c.pid
  noticed : c.life = .running ∨ st.pending = true ∨ ∃ a ∈ st.stack, .waitpid ∈ a.ops
  waiting : ∀ a ∈ st.stack, a.routine = .loop → ∀ pid, a.ops.head? = some (.setPid pid) →
    ∀ b ∈ st.stack, b.routine = .sigchild → b.ops = [.waitpid]

/-- sigchild is about to start a tincd or to end the worker. -/
def Revived (st : State) : Prop :=
  ∃ a ∈ st.stack, a.routine = .sigchild ∧
    ∃ op ∈ a.ops, op.starts = true ∨ ∃ code, op = .exit code

def Cared (st : State) : Prop := Revived st ∨ ∃ c, Known st c

/-- sigchild goes on only where the loop is not about to store a pid. -/
theorem waiting_run (hsound : Sound st) (hstack : st.stack = ⟨routine, op :: rest⟩ :: below)
    (hwaiting : ∀ a ∈ st.stack, a.routine = .loop → ∀ pid, a.ops.head? = some (.setPid pid) →
      ∀ b ∈ st.stack, b.routine = .sigchild → b.ops = [.waitpid]) (hwait : op ≠ .waitpid) :
    ∀ a ∈ ⟨routine, ops⟩ :: below, a.routine = .loop → ∀ pid, a.ops.head? = some (.setPid pid) →
      ∀ b ∈ ⟨routine, ops⟩ :: below, b.routine = .sigchild → b.ops = [.waitpid] := by
  have htop : (⟨routine, op :: rest⟩ : Activation) ∈ st.stack := hstack ▸ List.mem_cons_self
  have hbelow : ∀ a ∈ below, a ∈ st.stack := fun a ha => hstack ▸ List.mem_cons_of_mem _ ha
  intro a ha hloop pid hhead b hb hsigchild
  rcases List.mem_cons.mp ha with rfl | ha
  · have hloop : routine = .loop := hloop
    subst hloop
    rw [hsound.below_nil hstack, List.mem_singleton] at hb
    rw [hb] at hsigchild
    cases hsigchild
  · rcases List.mem_cons.mp hb with rfl | hb
    · have hops := hwaiting a (hbelow a ha) hloop pid hhead _ htop hsigchild
      exact absurd (List.cons.inj hops).1 hwait
    · exact hwaiting a (hbelow a ha) hloop pid hhead b (hbelow b hb) hsigchild

theorem Known.kept {c : Child} (h : Known st c) (hsound : Sound st)
    (hstack : st.stack = ⟨routine, op :: rest⟩ :: below) (hwait : op ≠ .waitpid)
    (hset : op.setsPid = false) (hops : ∀ o ∈ ops, o.setsPid = false) (hchild : c ∈ ctx.children)
    (hdiPid : ctx.diPid = st.diPid)
    (hpending : st.pending = true → c.life = .running ∨ ctx.pending = true) :
    Known ⟨ctx, st.phase, ⟨routine, ops ++ rest⟩ :: below⟩ c := by
  have htop : (⟨routine, op :: rest⟩ : Activation) ∈ st.stack := hstack ▸ List.mem_cons_self
  have hbelow : ∀ a ∈ below, a ∈ st.stack := fun a ha => hstack ▸ List.mem_cons_of_mem _ ha
  refine ⟨hchild, h.tincd, ?_, List.forall_mem_cons.mpr ⟨fun pid hmem => ?_,
    fun a ha => h.expected a (hbelow a ha)⟩, ?_, ?_⟩
  · rcases h.recorded with hpid | ⟨a, ha, hhead⟩
    · exact .inl (hdiPid.trans hpid)
    · rw [hstack] at ha
      rcases List.mem_cons.mp ha with rfl | ha
      · rw [Option.some.inj hhead] at hset
        cases hset
      · exact .inr ⟨a, List.mem_cons_of_mem _ ha, hhead⟩
  · rcases List.mem_append.mp hmem with hmem | hmem
    · have hnone := hops _ hmem
      cases hnone
    · exact h.expected _ htop pid (List.mem_cons_of_mem _ hmem)
  · rcases h.noticed with hrunning | hpend | ⟨a, ha, hmem⟩
    · exact .inl hrunning
    · rcases hpending hpend with hrunning | hpend
      · exact .inl hrunning
      · exact .inr (.inl hpend)
    · have hwaits := hsound.waits a ha hmem
      rw [hstack] at ha
      rcases List.mem_cons.mp ha with rfl | ha
      · exact absurd (List.cons.inj hwaits).1 hwait
      · exact .inr (.inr ⟨a, List.mem_cons_of_mem _ ha, hmem⟩)
  · exact waiting_run hsound hstack h.waiting hwait

theorem known_fork (hsound : Sound st) (h : Launching st)
    (hstack : st.stack = ⟨routine, .fork :: rest⟩ :: below) {pid : Nat}
    (heffect : Effect setup st.toContext .fork [.forked pid] (st.toContext.fork pid true)
      [.setPid pid]) :
    Known ⟨st.toContext.fork pid true, st.phase, ⟨routine, [.setPid pid] ++ rest⟩ :: below⟩
      ⟨pid, true, .running⟩ := by
  have hsingle := (launching_run hsound h hstack heffect).single
  have hcount : rest.countP launches = 0 ∧ pendingLaunches below = 0 := by
    rw [pendingLaunches_cons, List.countP_append,
      show [Op.setPid pid].countP launches = 1 from rfl] at hsingle
    omega
  refine ⟨mem_fork.mpr (.inr rfl), rfl, .inr ⟨_, List.mem_cons_self, rfl⟩,
    List.forall_mem_cons.mpr ⟨fun p hmem => ?_, fun a ha p hmem => ?_⟩, .inl rfl,
    fun a ha hloop p hhead b hb hsigchild => ?_⟩
  · rcases List.mem_cons.mp hmem with heq | hmem
    · exact Op.setPid.inj heq
    · exact absurd rfl (List.countP_eq_zero.mp hcount.1 _ hmem)
  · have hpos := pendingLaunches_pos ha hmem rfl
    omega
  · rcases List.mem_cons.mp ha with rfl | ha
    · have hloop : routine = .loop := hloop
      subst hloop
      rw [hsound.below_nil hstack, List.mem_singleton] at hb
      rw [hb] at hsigchild
      cases hsigchild
    · have hpos := pendingLaunches_pos ha (List.mem_of_mem_head? hhead) rfl
      omega

/-- Only one tincd is a child. -/
theorem eq_of_tincd (hsound : Sound st) {c d : Child} (hc : c ∈ st.children)
    (hd : d ∈ st.children) (hctincd : c.tincd = true) (hdtincd : d.tincd = true) : c = d := by
  by_contra hne
  have hpid : c.pid ≠ d.pid := fun heq => hne (List.inj_on_of_nodup_map hsound.pids hc hd heq)
  have hreap := tincds_reap_tincd hd hdtincd
  have hleft : 0 < (st.toContext.reap d.pid).tincds :=
    List.countP_pos_iff.mpr ⟨c, mem_reap.mpr ⟨hc, hpid⟩, hctincd⟩
  have hsingle := hsound.single
  omega

/-- The child that sigchild takes is the tincd. -/
theorem Known.taken {c d : Child} (h : Known st c) (hsound : Sound st) {a : Activation}
    (ha : a ∈ st.stack) (hwait : .waitpid ∈ a.ops) (hd : d ∈ st.children) : d = c := by
  have htincds : 0 < st.tincds := List.countP_pos_iff.mpr ⟨c, h.child, h.tincd⟩
  refine eq_of_tincd hsound hd h.child ?_ h.tincd
  cases htincd : d.tincd with
  | true => rfl
  | false =>
    obtain ⟨b, hb, hawaits⟩ := hsound.helpers d hd htincd
    rcases hawaits with hhead | hhead
    · have hsystem := inSystem_iff.mpr ⟨_, hhead⟩
      rw [hsound.not_inSystem ha hwait b hb] at hsystem
      cases hsystem
    · have hphase := hsound.signalling b hb _ (List.mem_of_mem_head? hhead) rfl
      have hidle := (hsound.unstarted (.inr hphase)).idle
      omega

theorem Known.setPid {c : Child} {pid : Nat} (h : Known st c) (hsound : Sound st)
    (hstack : st.stack = ⟨routine, .setPid pid :: rest⟩ :: below) :
    Known ⟨{ st.toContext with diPid := some pid }, st.phase, ⟨routine, [] ++ rest⟩ :: below⟩ c := by
  have htop : (⟨routine, .setPid pid :: rest⟩ : Activation) ∈ st.stack :=
    hstack ▸ List.mem_cons_self
  have hpid : pid = c.pid := h.expected _ htop pid List.mem_cons_self
  refine ⟨h.child, h.tincd, .inl (congrArg some hpid), List.forall_mem_cons.mpr ⟨fun p hmem => ?_,
    fun a ha => h.expected a (hstack ▸ List.mem_cons_of_mem _ ha)⟩, ?_,
    waiting_run hsound hstack h.waiting (by simp)⟩
  · exact h.expected _ htop p (List.mem_cons_of_mem _ hmem)
  · rcases h.noticed with hrunning | hpending | ⟨a, ha, hmem⟩
    · exact .inl hrunning
    · exact .inr (.inl hpending)
    · have hwaits := hsound.waits a ha hmem
      rw [hstack] at ha
      rcases List.mem_cons.mp ha with rfl | ha
      · cases hwaits
      · exact .inr (.inr ⟨a, List.mem_cons_of_mem _ ha, hmem⟩)

theorem Known.run {c : Child} (h : Known st c) (hsound : Sound st) (hscripts : ScriptPids st)
    (hstack : st.stack = ⟨routine, op :: rest⟩ :: below)
    (heffect : Effect setup st.toContext op events ctx ops) (hexited : ctx.exited = false)
    (hignored : ctx.ignored = false)
    (hcond : ∀ pid, .reaped pid ∈ events → ∀ a ∈ st.stack, a.routine = .loop →
      a.ops.head? ≠ some (.setPid pid)) :
    Cared ⟨ctx, st.phase, ⟨routine, ops ++ rest⟩ :: below⟩ := by
  have htop : (⟨routine, op :: rest⟩ : Activation) ∈ st.stack := hstack ▸ List.mem_cons_self
  have htincds : 0 < st.tincds := List.countP_pos_iff.mpr ⟨c, h.child, h.tincd⟩
  have hquiet : ∀ {ops : List Op}, op ≠ .waitpid → op.setsPid = false →
      (∀ o ∈ ops, o.setsPid = false) →
      Cared ⟨st.toContext, st.phase, ⟨routine, ops ++ rest⟩ :: below⟩ :=
    fun hwait hset hops => .inr ⟨c, h.kept hsound hstack hwait hset hops h.child rfl .inr⟩
  cases heffect with
  | pidCommand | script =>
    refine .inr ⟨c, h.kept hsound hstack (by simp) rfl (by simp [Op.setsPid]) ?_ rfl .inr⟩
    exact mem_fork.mpr (.inl h.child)
  | pclose _ hops =>
    have hphase := hsound.signalling _ htop _ List.mem_cons_self rfl
    have hidle := (hsound.unstarted (.inr hphase)).idle
    omega
  | fork hfresh =>
    have hsingle := hsound.single
    rw [hstack, pendingStarts_cons, List.countP_cons_of_pos rfl] at hsingle
    omega
  | @setPid pid => exact .inr ⟨c, h.setPid hsound hstack⟩
  | @system pid left _ hleft =>
    have hmem : c ∈ (st.toContext.reap pid).children := by
      refine mem_reap.mpr ⟨h.child, fun hpid => ?_⟩
      have htincd := hscripts.owned _ htop pid rfl c h.child hpid
      rw [h.tincd] at htincd
      cases htincd
    refine .inr ⟨c, h.kept hsound hstack (by simp) rfl (by simp) ?_ ?_ fun hpending => ?_⟩
    · rcases hleft with rfl | rfl <;> exact hmem
    · rcases hleft with rfl | rfl <;> rfl
    · by_cases hrunning : c.life = .running
      · exact .inl hrunning
      · refine .inr ?_
        rcases hleft with rfl | rfl
        · exact hpending
        · simp only [Context.clear, Bool.and_eq_true]
          exact ⟨hpending, List.any_eq_true.mpr ⟨c, hmem, by simpa using hrunning⟩⟩
  | ignoreChild => cases hignored
  | @reaped child fatal =>
    have hwaiter : routine = .sigchild := hsound.waiter htop List.mem_cons_self
    exact .inl ⟨_, List.mem_cons_self, hwaiter, .restart fatal, by simp, .inl rfl⟩
  | @unknown child fatal hchild _ hpid =>
    obtain rfl : child = c := h.taken hsound htop List.mem_cons_self hchild
    rcases h.recorded with hrecorded | ⟨a, ha, hhead⟩
    · exact absurd hrecorded hpid
    · refine absurd hhead (hcond _ (by simp) a ha ?_)
      have hdoes := hsound.does a ha _ (List.mem_of_mem_head? hhead)
      cases hroutine : a.routine with
      | loop => rfl
      | sigchild =>
        have hwaiter := hsound.waiter htop List.mem_cons_self
        have hsame := List.inj_on_of_nodup_map hsound.routines htop ha
          (hwaiter.trans hroutine.symm)
        rw [← hsame] at hhead
        cases hhead
      | sigterm | sigint =>
        rw [hroutine] at hdoes
        cases hdoes
  | noChild hnone =>
    have hchild := h.child
    rw [hnone] at hchild
    cases hchild
  | exit => cases hexited
  | exitIfOneshot hops | terminate hops | restart hops =>
    refine hquiet (by simp) rfl ?_
    rcases hops with rfl | rfl <;> simp [Op.setsPid, daemonStart]
  | failed hfailed =>
    rcases hfailed with rfl | rfl <;> exact hquiet (by simp) rfl (by simp [Op.setsPid])
  | _ => exact hquiet (by simp) rfl (by simp [Op.setsPid, killOldTincd])

theorem Revived.run (h : Revived st) (hsound : Sound st) (hlaunching : Launching st)
    (hstack : st.stack = ⟨routine, op :: rest⟩ :: below)
    (heffect : Effect setup st.toContext op events ctx ops) (hexited : ctx.exited = false) :
    Cared ⟨ctx, st.phase, ⟨routine, ops ++ rest⟩ :: below⟩ := by
  obtain ⟨a, ha, hroutine, o, ho, hwhat⟩ := h
  rw [hstack] at ha
  rcases List.mem_cons.mp ha with rfl | ha
  · have htop : ∀ o' ∈ ops, o'.starts = true ∨ (∃ code, o' = .exit code) →
        Cared ⟨ctx, st.phase, ⟨routine, ops ++ rest⟩ :: below⟩ := fun o' ho' hwhat' =>
      .inl ⟨_, List.mem_cons_self, hroutine, o', List.mem_append_left _ ho', hwhat'⟩
    rcases List.mem_cons.mp ho with rfl | ho
    · cases heffect with
      | pipe => exact htop .fork (by simp) (.inl rfl)
      | failed | fatal => exact htop (.exit 1) (by simp) (.inr ⟨1, rfl⟩)
      | @fork pid hfresh =>
        have hfork : Effect setup st.toContext .fork [.forked pid] (st.toContext.fork pid true)
            [.setPid pid] := .fork hfresh
        exact .inr ⟨_, known_fork hsound hlaunching hstack hfork⟩
      | restart hops =>
        refine htop .pipe ?_ (.inl rfl)
        rcases hops with rfl | rfl <;> simp [daemonStart]
      | exit => cases hexited
      | _ => simp [Op.starts] at hwhat
    · exact .inl ⟨_, List.mem_cons_self, hroutine, o, List.mem_append_right _ ho, hwhat⟩
  · exact .inl ⟨a, List.mem_cons_of_mem _ ha, hroutine, o, ho, hwhat⟩

/-- The activations may get one on top, or lose one that has nothing left to do. -/
theorem Known.stack {c : Child} (h : Known st c) (stack : List Activation) (pending : Bool)
    (hmem : ∀ a ∈ st.stack, a.ops ≠ [] → a ∈ stack)
    (hnew : ∀ a ∈ stack, a ∈ st.stack ∨ (a.routine ≠ .loop ∧ (∀ pid, .setPid pid ∉ a.ops) ∧
      (a.routine = .sigchild → a.ops = [.waitpid])))
    (hpending : st.pending = true → pending = true ∨ ∃ a ∈ stack, .waitpid ∈ a.ops) :
    Known { st with pending, stack } c := by
  refine ⟨h.child, h.tincd, ?_, fun a ha pid hset => ?_, ?_, fun a ha hloop pid hhead b hb hr => ?_⟩
  · rcases h.recorded with hpid | ⟨a, ha, hhead⟩
    · exact .inl hpid
    · refine .inr ⟨a, hmem a ha fun hnil => ?_, hhead⟩
      rw [hnil] at hhead
      cases hhead
  · rcases hnew a ha with ha | ⟨-, hnone, -⟩
    · exact h.expected a ha pid hset
    · exact absurd hset (hnone pid)
  · rcases h.noticed with hrunning | hpend | ⟨a, ha, hwait⟩
    · exact .inl hrunning
    · exact .inr (hpending hpend)
    · exact .inr (.inr ⟨a, hmem a ha (List.ne_nil_of_mem hwait), hwait⟩)
  · rcases hnew b hb with hb | ⟨-, -, hwait⟩
    · rcases hnew a ha with ha | ⟨hne, -, -⟩
      · exact h.waiting a ha hloop pid hhead b hb hr
      · exact absurd hloop hne
    · exact hwait hr

theorem Known.exits {c : Child} (h : Known st c) {pid : Nat} {fatal : Bool}
    (hignored : st.ignored = false) :
    ∃ d, Known { st with toContext := st.toContext.childExits pid fatal } d := by
  have hexits : st.toContext.childExits pid fatal =
      { st.toContext with
        children := st.children.map fun c =>
          if c.pid = pid then { c with life := .ended fatal } else c
        pending := true } := by
    rw [Context.childExits, if_neg (by simp [hignored])]
  rw [hexits]
  refine ⟨if c.pid = pid then { c with life := .ended fatal } else c, List.mem_map_of_mem h.child,
    ?_, ?_, ?_, .inr (.inl rfl), h.waiting⟩
  · split <;> exact h.tincd
  · split <;> exact h.recorded
  · split <;> exact h.expected

theorem Known.push {c : Child} (h : Known st c) (a : Activation) (pending : Bool)
    (hroutine : a.routine ≠ .loop) (hset : ∀ pid, .setPid pid ∉ a.ops)
    (hwait : a.routine = .sigchild → a.ops = [.waitpid])
    (hpending : st.pending = true → pending = true ∨ ∃ b ∈ a :: st.stack, .waitpid ∈ b.ops) :
    Known { st with pending, stack := a :: st.stack } c := by
  refine h.stack (a :: st.stack) pending (fun b hb _ => List.mem_cons_of_mem _ hb) ?_ hpending
  exact List.forall_mem_cons.mpr ⟨.inr ⟨hroutine, hset, hwait⟩, fun b hb => .inl hb⟩

theorem Revived.mono (h : Revived st) (hmem : ∀ a ∈ st.stack, a.ops ≠ [] → a ∈ st'.stack) :
    Revived st' := by
  obtain ⟨a, ha, hroutine, o, ho, hwhat⟩ := h
  exact ⟨a, hmem a ha (List.ne_nil_of_mem ho), hroutine, o, ho, hwhat⟩

theorem cared_step (hsound : Sound st) (hlaunching : Launching st) (hscripts : ScriptPids st)
    (h : Cared st) (hstep : Step setup st act events st') (hexited : st'.exited = false)
    (hignored : st'.ignored = false)
    (hcond : ∀ pid, .reaped pid ∈ events → ∀ a ∈ st.stack, a.routine = .loop →
      a.ops.head? ≠ some (.setPid pid)) :
    Cared st' := by
  cases hstep with
  | @command c phase hstack =>
    have hempty : ∀ a ∈ st.stack, a.ops = [] := by
      rw [hstack]
      simp
    rcases h with ⟨a, ha, -, o, ho, -⟩ | ⟨child, hknown⟩
    · rw [hempty a ha] at ho
      cases ho
    · refine .inr ⟨child, hknown.child, hknown.tincd, ?_, ?_, ?_, ?_⟩
      · rcases hknown.recorded with hpid | ⟨a, ha, hhead⟩
        · exact .inl hpid
        · rw [hempty a ha] at hhead
          cases hhead
      · refine List.forall_mem_singleton.mpr fun pid hset => ?_
        cases c <;> simp [commandOps, daemonStart, sigtermOps] at hset
      · rcases hknown.noticed with hrunning | hpending | ⟨a, ha, hwait⟩
        · exact .inl hrunning
        · exact .inr (.inl hpending)
        · rw [hempty a ha] at hwait
          cases hwait
      · intro a ha hloop pid hhead b hb hsigchild
        rw [List.mem_singleton.mp hb] at hsigchild
        cases hsigchild
  | run hstack heffect =>
    rcases h with hrevived | ⟨c, hknown⟩
    · exact hrevived.run hsound hlaunching hstack heffect hexited
    · exact hknown.run hsound hscripts hstack heffect hexited hignored hcond
  | @leave _ routine below hstack =>
    have hmem : ∀ a ∈ st.stack, a.ops ≠ [] → a ∈ below := by
      rw [hstack]
      exact List.forall_mem_cons.mpr ⟨fun hne => absurd rfl hne, fun a ha _ => ha⟩
    rcases h with hrevived | ⟨c, hknown⟩
    · exact .inl (hrevived.mono hmem)
    · exact .inr ⟨c, hknown.stack below st.pending hmem
        (fun a ha => .inl (hstack ▸ List.mem_cons_of_mem _ ha)) .inl⟩
  | @exits pid fatal =>
    rcases h with hrevived | ⟨c, hknown⟩
    · exact .inl (hrevived.mono fun a ha _ => ha)
    · refine .inr (hknown.exits ?_)
      cases hold : st.ignored with
      | false => rfl
      | true =>
        change (st.toContext.childExits pid fatal).ignored = false at hignored
        rw [Context.childExits, if_pos hold] at hignored
        exact absurd hignored (by simp [Context.reap, hold])
  | notify =>
    rcases h with hrevived | ⟨c, hknown⟩
    · exact .inl (hrevived.mono fun a ha _ => ha)
    · have hold : st.ignored = false := hignored
      exact .inr ⟨c, hknown.stack st.stack (!st.ignored) (fun a ha _ => ha) (fun a ha => .inl ha)
        fun _ => .inl (by rw [hold]; rfl)⟩
  | sigchld =>
    rcases h with hrevived | ⟨c, hknown⟩
    · exact .inl (hrevived.mono fun a ha _ => List.mem_cons_of_mem _ ha)
    · refine .inr ⟨c, hknown.push ⟨.sigchild, [.waitpid]⟩ false (by simp) (by simp) (fun _ => rfl)
        fun _ => .inr ⟨_, List.mem_cons_self, by simp⟩⟩
  | @deliver r hr =>
    rcases h with hrevived | ⟨c, hknown⟩
    · exact .inl (hrevived.mono fun a ha _ => List.mem_cons_of_mem _ ha)
    · refine .inr ⟨c, hknown.push ⟨r, sigtermOps⟩ st.pending ?_ (by simp [sigtermOps]) ?_ .inl⟩
      · rcases hr with rfl | rfl <;> simp
      · rcases hr with rfl | rfl <;> simp

/-! Where SIGCHLD is ignored, and where a pid comes from -/

/-- An activation that makes the worker ignore SIGCHLD ends it. -/
structure Ending (st : State) : Prop where
  ignoring : st.ignored = true → st.exited = true ∨
    ∃ a ∈ st.stack, ∃ code, a.ops.getLast? = some (.exit code)
  closes : ∀ a ∈ st.stack, .ignoreChild ∈ a.ops → ∃ code, a.ops.getLast? = some (.exit code)

theorem Effect.no_ignoreChild (h : Effect setup ctx op events ctx' ops) : .ignoreChild ∉ ops := by
  cases h with
  | pclose _ hops | exitIfOneshot hops | terminate hops | restart hops =>
    rcases hops with rfl | rfl <;> simp [killOldTincd, daemonStart]
  | _ => simp [killOldTincd]

theorem getLast?_of_tail {o : Op} (h : (op :: rest).getLast? = some o) (hne : op ≠ o)
    (ops : List Op) : (ops ++ rest).getLast? = some o := by
  cases rest with
  | nil => exact absurd (Option.some.inj h) hne
  | cons r rest => rwa [List.getLast?_append_of_ne_nil _ (List.cons_ne_nil r rest)]

theorem effect_ignored (h : Effect setup ctx op events ctx' ops) (hop : op ≠ .ignoreChild) :
    ctx'.ignored = ctx.ignored := by
  cases h with
  | ignoreChild => exact absurd rfl hop
  | system _ hleft => rcases hleft with rfl | rfl <;> rfl
  | _ => rfl

theorem effect_exit {code : Nat} (h : Effect setup ctx (.exit code) events ctx' ops) :
    ctx'.exited = true := by
  cases h with
  | exit => rfl
  | failed hfailed => rcases hfailed with h | h <;> cases h

theorem ending_run (h : Ending st) (hstack : st.stack = ⟨routine, op :: rest⟩ :: below)
    (hexited : st.exited = false) (heffect : Effect setup st.toContext op events ctx ops) :
    Ending ⟨ctx, st.phase, ⟨routine, ops ++ rest⟩ :: below⟩ := by
  have htop : (⟨routine, op :: rest⟩ : Activation) ∈ st.stack := hstack ▸ List.mem_cons_self
  have hbelow : ∀ a ∈ below, a ∈ st.stack := fun a ha => hstack ▸ List.mem_cons_of_mem _ ha
  have hlast : ∀ code, (op :: rest).getLast? = some (.exit code) → ctx.exited = true ∨
      (ops ++ rest).getLast? = some (.exit code) := by
    intro code hlast
    by_cases hop : op = .exit code
    · subst hop
      exact .inl (effect_exit heffect)
    · exact .inr (getLast?_of_tail hlast hop ops)
  refine ⟨fun hignored => ?_,
    List.forall_mem_cons.mpr ⟨fun hmem => ?_, fun a ha => h.closes a (hbelow a ha)⟩⟩
  · have hfrom : ∃ a ∈ st.stack, ∃ code, a.ops.getLast? = some (.exit code) := by
      by_cases hop : op = .ignoreChild
      · obtain ⟨code, hcode⟩ := h.closes _ htop (by simp [hop])
        exact ⟨_, htop, code, hcode⟩
      · have hold : st.ignored = true := (effect_ignored heffect hop).symm.trans hignored
        rcases h.ignoring hold with hexit | hexit
        · rw [hexited] at hexit
          cases hexit
        · exact hexit
    obtain ⟨a, ha, code, hcode⟩ := hfrom
    rw [hstack] at ha
    rcases List.mem_cons.mp ha with rfl | ha
    · rcases hlast code hcode with hexit | hcode
      · exact .inl hexit
      · exact .inr ⟨_, List.mem_cons_self, code, hcode⟩
    · exact .inr ⟨a, List.mem_cons_of_mem _ ha, code, hcode⟩
  · rcases List.mem_append.mp hmem with hmem | hmem
    · exact absurd hmem (Effect.no_ignoreChild heffect)
    · obtain ⟨code, hcode⟩ := h.closes _ htop (List.mem_cons_of_mem _ hmem)
      refine ⟨code, ?_⟩
      rw [List.getLast?_append_of_ne_nil _ (List.ne_nil_of_mem hmem)]
      have hsplit : (op :: rest).getLast? = rest.getLast? := by
        rw [← List.singleton_append, List.getLast?_append_of_ne_nil _ (List.ne_nil_of_mem hmem)]
      exact hsplit.symm.trans hcode

theorem ending_step (h : Ending st) (hexited : st.exited = false)
    (hstep : Step setup st act events st') : Ending st' := by
  cases hstep with
  | @command c phase hstack =>
    refine ⟨fun hignored => ?_, List.forall_mem_singleton.mpr fun hmem => ?_⟩
    · rcases h.ignoring hignored with hexit | ⟨a, ha, code, hcode⟩
      · exact .inl hexit
      · rw [hstack, List.mem_singleton] at ha
        rw [ha] at hcode
        cases hcode
    · cases c <;> simp [commandOps, daemonStart, sigtermOps] at hmem ⊢
  | run hstack heffect => exact ending_run h hstack hexited heffect
  | @leave _ routine below hstack =>
    refine ⟨fun hignored => ?_, fun a ha => h.closes a (hstack ▸ List.mem_cons_of_mem _ ha)⟩
    rcases h.ignoring hignored with hexit | ⟨a, ha, code, hcode⟩
    · exact .inl hexit
    · rw [hstack] at ha
      rcases List.mem_cons.mp ha with rfl | ha
      · cases hcode
      · exact .inr ⟨a, ha, code, hcode⟩
  | @exits pid fatal =>
    refine ⟨fun hignored => ?_, h.closes⟩
    have hold : st.ignored = true := by
      change (st.toContext.childExits pid fatal).ignored = true at hignored
      rw [Context.childExits] at hignored
      split at hignored <;> exact hignored
    rcases h.ignoring hold with hexit | hexit
    · rw [hexited] at hexit
      cases hexit
    · exact .inr hexit
  | notify => exact ⟨h.ignoring, h.closes⟩
  | sigchld =>
    refine ⟨fun hignored => ?_, List.forall_mem_cons.mpr ⟨by simp, h.closes⟩⟩
    rcases h.ignoring hignored with hexit | ⟨a, ha, code, hcode⟩
    · exact .inl hexit
    · exact .inr ⟨a, List.mem_cons_of_mem _ ha, code, hcode⟩
  | deliver =>
    refine ⟨fun hignored => ?_, List.forall_mem_cons.mpr ⟨fun _ => ⟨1, rfl⟩, h.closes⟩⟩
    rcases h.ignoring hignored with hexit | ⟨a, ha, code, hcode⟩
    · exact .inl hexit
    · exact .inr ⟨a, List.mem_cons_of_mem _ ha, code, hcode⟩

theorem ending (run : Run setup t st) : Ending st := by
  refine run.invariant (fun _ => Ending) ⟨by simp [startState], by simp [startState]⟩ ?_
  intro t st act events st' _ h hstep
  obtain ⟨hexited, hcases⟩ := step_cases hstep
  exact ending_step h hexited hcases

/-- The pids that di_pid gets are those of forks. -/
def FromFork (t : List Call) (st : State) : Prop :=
  (st.diPid ≠ none ∨ ∃ a ∈ st.stack, ∃ op ∈ a.ops, op.setsPid = true) → Forked t

theorem Forked.append (h : Forked t) (c : Call) : Forked (t ++ [c]) := by
  obtain ⟨d, hd, hforked⟩ := h
  exact ⟨d, List.mem_append_left _ hd, hforked⟩

theorem effect_setsPid (h : Effect setup ctx op events ctx' ops) :
    ∀ o ∈ ops, o.setsPid = true → ∃ pid, .forked pid ∈ events := by
  cases h with
  | @fork pid => exact fun _ _ _ => ⟨pid, by simp⟩
  | pclose _ hops | exitIfOneshot hops | terminate hops | restart hops =>
    rcases hops with rfl | rfl <;> simp [Op.setsPid, killOldTincd, daemonStart]
  | failed => simp [Op.setsPid]
  | _ => simp [Op.setsPid, killOldTincd]

theorem fromFork_step (h : FromFork t st) (hstep : Step setup st act events st') :
    FromFork (t ++ [⟨st, act, events, st'⟩]) st' := by
  have hold : (st.diPid ≠ none ∨ ∃ a ∈ st.stack, ∃ op ∈ a.ops, op.setsPid = true) →
      Forked (t ++ [⟨st, act, events, st'⟩]) := fun hsource => (h hsource).append _
  cases hstep with
  | @command c =>
    rintro (hpid | ⟨a, ha, op, hop, hset⟩)
    · exact hold (.inl hpid)
    · rw [List.mem_singleton.mp ha] at hop
      cases c <;> simp [commandOps, daemonStart, sigtermOps] at hop <;>
        rcases hop with rfl | rfl | rfl | rfl <;> cases hset
  | @run answer routine op rest ops below _ ctx hstack heffect =>
    have htop : (⟨routine, op :: rest⟩ : Activation) ∈ st.stack := hstack ▸ List.mem_cons_self
    rintro (hpid | ⟨a, ha, o, ho, hset⟩)
    · cases hop : op.setsPid with
      | true => exact hold (.inr ⟨_, htop, op, List.mem_cons_self, hop⟩)
      | false => exact hold (.inl (heffect.diPid hop ▸ hpid))
    · rcases List.mem_cons.mp ha with rfl | ha
      · rcases List.mem_append.mp ho with ho | ho
        · obtain ⟨pid, hforked⟩ := effect_setsPid heffect o ho hset
          exact ⟨_, List.mem_append_right _ List.mem_cons_self, pid, hforked⟩
        · exact hold (.inr ⟨_, htop, o, List.mem_cons_of_mem _ ho, hset⟩)
      · exact hold (.inr ⟨a, hstack ▸ List.mem_cons_of_mem _ ha, o, ho, hset⟩)
  | leave hstack =>
    rintro (hpid | ⟨a, ha, o, ho, hset⟩)
    · exact hold (.inl hpid)
    · exact hold (.inr ⟨a, hstack ▸ List.mem_cons_of_mem _ ha, o, ho, hset⟩)
  | @exits pid fatal =>
    have hdiPid : (st.toContext.childExits pid fatal).diPid = st.diPid := by
      rw [Context.childExits]
      split <;> rfl
    rintro (hpid | hset)
    · exact hold (.inl (hdiPid ▸ hpid))
    · exact hold (.inr hset)
  | notify => exact hold
  | sigchld =>
    rintro (hpid | ⟨a, ha, o, ho, hset⟩)
    · exact hold (.inl hpid)
    · rcases List.mem_cons.mp ha with rfl | ha
      · rw [List.mem_singleton.mp ho] at hset
        cases hset
      · exact hold (.inr ⟨a, ha, o, ho, hset⟩)
  | deliver =>
    rintro (hpid | ⟨a, ha, o, ho, hset⟩)
    · exact hold (.inl hpid)
    · rcases List.mem_cons.mp ha with rfl | ha
      · simp [sigtermOps] at ho
        rcases ho with rfl | rfl | rfl <;> cases hset
      · exact hold (.inr ⟨a, ha, o, ho, hset⟩)

theorem fromFork (run : Run setup t st) : FromFork t st := by
  refine run.invariant FromFork (by simp [FromFork, startState]) ?_
  intro t st act events st' _ h hstep
  exact fromFork_step h (step_cases hstep).2

/-! Every death is noticed -/

theorem step_ignored (hstep : Step setup st act events st') (h : st'.ignored = false) :
    st.ignored = false := by
  cases hstep with
  | @run _ _ op _ _ _ _ ctx hstack heffect =>
    by_cases hop : op = .ignoreChild
    · subst hop
      cases heffect with
      | ignoreChild => cases h
      | failed hfailed => rcases hfailed with h | h <;> cases h
    · exact (effect_ignored heffect hop).symm.trans h
  | @exits pid fatal =>
    change (st.toContext.childExits pid fatal).ignored = false at h
    rw [Context.childExits] at h
    split at h <;> exact h
  | _ => exact h

theorem cared (run : Run setup t st) (hcond : ∀ c ∈ t, ¬ TakenUnrecorded c) (hforked : Forked t)
    (hexited : st.exited = false) (hignored : st.ignored = false) : Cared st := by
  have hinvariant : (∀ c ∈ t, ¬ TakenUnrecorded c) → Forked t → st.exited = false →
      st.ignored = false → Cared st := by
    refine run.invariant (fun t st => (∀ c ∈ t, ¬ TakenUnrecorded c) → Forked t →
      st.exited = false → st.ignored = false → Cared st) ?_ ?_
    · rintro - ⟨c, hc, -⟩
      cases hc
    · intro t st act events st' hrun ih hstep hcond hforked hexited hignored
      obtain ⟨hexitedBefore, hcases⟩ := step_cases hstep
      by_cases hbefore : Forked t
      · refine cared_step (sound hrun) (launching hrun) (scriptPids hrun)
          (ih (fun c hc => hcond c (List.mem_append_left _ hc)) hbefore hexitedBefore
            (step_ignored hcases hignored)) hcases hexited hignored ?_
        intro pid hreaped a ha hloop hhead
        obtain ⟨hact, htop⟩ := reaped_input hstep hreaped
        exact hcond _ (List.mem_append_right _ List.mem_cons_self)
          ⟨pid, hact, htop, a, ha, hloop, hhead⟩
      · obtain ⟨c, hc, pid, hpid⟩ := hforked
        rcases List.mem_append.mp hc with hc | hc
        · exact absurd ⟨c, hc, pid, hpid⟩ hbefore
        · rw [List.mem_singleton.mp hc] at hpid
          cases hcases with
          | run hstack heffect =>
            cases heffect with
            | @fork p hfresh =>
              have hfork : Effect setup st.toContext .fork [.forked p] (st.toContext.fork p true)
                  [.setPid p] := .fork hfresh
              exact .inr ⟨_, known_fork (sound hrun) (launching hrun) hstack hfork⟩
            | _ => simp at hpid
          | _ => cases hpid
  exact hinvariant hcond hforked hexited hignored

/-- sigchild returns. -/
def Returns (c : Call) : Prop := c.pre.stack = ⟨.sigchild, []⟩ :: c.post.stack

/-- A tincd is a child, the worker knows its pid or is about to store it, and it runs or its
end has still to be handled. -/
def Attended (st : State) : Prop :=
  ∃ c ∈ st.children, c.tincd = true ∧
    (st.diPid = some c.pid ∨
      ∃ a ∈ st.stack, a.routine = .loop ∧ a.ops.head? = some (.setPid c.pid)) ∧
    (c.life = .running ∨ st.pending = true)

/-- The worker waits for a command, and what di_pid names has not been waited for. -/
def WaitsInformed (st : State) : Prop :=
  st.exited = false → st.stack = [⟨.loop, []⟩] → ∀ pid, st.diPid = some pid →
    ∃ c ∈ st.children, c.pid = pid

theorem known_of_inactive (h : Cared st) (hactive : active st.stack .sigchild = false) :
    ∃ c, Known st c := by
  rcases h with ⟨a, ha, hroutine, -⟩ | hknown
  · rw [active_iff.mpr ⟨a, ha, hroutine⟩] at hactive
    cases hactive
  · exact hknown

theorem Known.loop_sets {c : Child} (hsound : Sound st)
    (hactive : active st.stack .sigchild = false) {a : Activation} (ha : a ∈ st.stack)
    (hhead : a.ops.head? = some (.setPid c.pid)) : a.routine = .loop := by
  have hdoes := hsound.does a ha _ (List.mem_of_mem_head? hhead)
  cases hroutine : a.routine with
  | loop => rfl
  | sigchild =>
    rw [active_iff.mpr ⟨a, ha, hroutine⟩] at hactive
    cases hactive
  | sigterm | sigint =>
    rw [hroutine] at hdoes
    cases hdoes

theorem attended (run : Run setup t st) (hcond : ∀ c ∈ t, ¬ TakenUnrecorded c)
    (hforked : Forked t) (hexited : st.exited = false) (hignored : st.ignored = false)
    (hactive : active st.stack .sigchild = false) : Attended st := by
  obtain ⟨c, hknown⟩ := known_of_inactive (cared run hcond hforked hexited hignored) hactive
  refine ⟨c, hknown.child, hknown.tincd, ?_, ?_⟩
  · rcases hknown.recorded with hpid | ⟨a, ha, hhead⟩
    · exact .inl hpid
    · exact .inr ⟨a, ha, Known.loop_sets (sound run) hactive ha hhead, hhead⟩
  · rcases hknown.noticed with hrunning | hpending | ⟨a, ha, hwait⟩
    · exact .inl hrunning
    · exact .inr hpending
    · rw [active_iff.mpr ⟨a, ha, (sound run).waiter ha hwait⟩] at hactive
      cases hactive

theorem waitsInformed (run : Run setup t st) (hcond : ∀ c ∈ t, ¬ TakenUnrecorded c) :
    WaitsInformed st := by
  intro hexited hstack pid hpid
  have hforked : Forked t := fromFork run (.inl (by rw [hpid]; simp))
  have hignored : st.ignored = false := by
    cases hignored : st.ignored with
    | false => rfl
    | true =>
      rcases (ending run).ignoring hignored with hexit | ⟨a, ha, code, hcode⟩
      · rw [hexited] at hexit
        cases hexit
      · rw [hstack, List.mem_singleton] at ha
        rw [ha] at hcode
        cases hcode
  obtain ⟨c, hc, -, hrecorded, -⟩ := attended run hcond hforked hexited hignored
    (by rw [hstack]; rfl)
  rcases hrecorded with heq | ⟨a, ha, -, hhead⟩
  · exact ⟨c, hc, Option.some.inj (heq.symm.trans hpid)⟩
  · rw [hstack, List.mem_singleton] at ha
    rw [ha] at hhead
    cases hhead

theorem returns_step (hstep : Step setup st act events st')
    (h : st.stack = ⟨.sigchild, []⟩ :: st'.stack) : st'.toContext = st.toContext := by
  cases hstep with
  | run hstack =>
    rw [hstack] at h
    cases (List.cons.inj h).1
  | exits | notify => exact absurd (congrArg List.length h) (by simp)
  | command | leave => rfl
  | sigchld => exact absurd (congrArg List.length h) (by simp; omega)
  | deliver => exact absurd (congrArg List.length h) (by simp; omega)

/-- When sigchild returns, di_pid names a tincd that has not been waited for. -/
theorem returns_recorded {before : List Call} {c : Call} (run : Run setup before c.pre)
    (hstep : step setup c.pre c.input = some (c.out, c.post))
    (hcond : ∀ d ∈ before ++ [c], ¬ TakenUnrecorded d) (hforked : Forked before)
    (hreturns : Returns c) (hignored : c.post.ignored = false) :
    ∃ child ∈ c.post.children, child.tincd = true ∧ c.post.diPid = some child.pid := by
  obtain ⟨hexited, hcases⟩ := step_cases hstep
  have hcontext := returns_step hcases hreturns
  have hsound := sound run
  have hroutines := hsound.routines
  have hbelow : ∀ a ∈ c.post.stack, a ∈ c.pre.stack := fun a ha =>
    hreturns ▸ List.mem_cons_of_mem _ ha
  have htop : (⟨.sigchild, []⟩ : Activation) ∈ c.pre.stack := hreturns ▸ List.mem_cons_self
  rw [hreturns, List.map_cons, List.nodup_cons] at hroutines
  have hpreIgnored : c.pre.ignored = false := step_ignored hcases hignored
  rcases cared run (fun d hd => hcond d (List.mem_append_left _ hd)) hforked hexited hpreIgnored with
    ⟨a, ha, hroutine, o, ho, -⟩ | ⟨child, hknown⟩
  · have hsame : a = ⟨.sigchild, []⟩ :=
      List.inj_on_of_nodup_map hsound.routines ha htop hroutine
    rw [hsame] at ho
    cases ho
  · refine ⟨child, ?_, hknown.tincd, ?_⟩
    · rw [hcontext]
      exact hknown.child
    · rw [hcontext]
      rcases hknown.recorded with hpid | ⟨a, ha, hhead⟩
      · exact hpid
      · have hdoes := hsound.does a ha _ (List.mem_of_mem_head? hhead)
        cases hroutine : a.routine with
        | loop =>
          have hwait := hknown.waiting a ha hroutine _ hhead _ htop rfl
          cases hwait
        | sigchild =>
          have hsame := List.inj_on_of_nodup_map hsound.routines ha htop hroutine
          rw [hsame] at hhead
          cases hhead
        | sigterm | sigint =>
          rw [hroutine] at hdoes
          cases hdoes

/-- No end of a tincd is lost, unless sigchild takes a tincd before its pid has been stored. -/
theorem deaths_noticed (setup : Setup) {t : List Call} {st : State} (run : Run setup t st)
    (hcond : ∀ c ∈ t, ¬ TakenUnrecorded c) :
    (∀ before c after, t = before ++ c :: after → Forked before → Returns c →
      c.post.ignored = false →
        ∃ child ∈ c.post.children, child.tincd = true ∧ c.post.diPid = some child.pid) ∧
      (Forked t → st.exited = false → st.ignored = false →
        active st.stack .sigchild = false → Attended st) ∧
      WaitsInformed st := by
  refine ⟨?_, attended run hcond, waitsInformed run hcond⟩
  intro before c after ht hforked hreturns hignored
  obtain ⟨hbefore, hstep⟩ := run.split ht
  refine returns_recorded hbefore hstep (fun d hd => hcond d ?_) hforked hreturns hignored
  rw [ht]
  rcases List.mem_append.mp hd with hd | hd
  · exact List.mem_append_left _ hd
  · rw [List.mem_singleton.mp hd]
    simp

/-- A tincd ends, is taken by sigchild and replaced. -/
def sampleReplaced : List Act :=
  sampleStart ++
  [.exits 100 false, .deliverSigchld, .run (.pid 100), .run .failed, .run .done, .run .done,
   .run .done, .run (.pid 102), .run .done, .run .done]

theorem deaths_noticed_sample :
    (∀ before c after, (executed sampleSetup sampleReplaced).1 = before ++ c :: after →
      Forked before → Returns c → c.post.ignored = false →
        ∃ child ∈ c.post.children, child.tincd = true ∧ c.post.diPid = some child.pid) ∧
      (Forked (executed sampleSetup sampleReplaced).1 →
        (executed sampleSetup sampleReplaced).2.exited = false →
        (executed sampleSetup sampleReplaced).2.ignored = false →
        active (executed sampleSetup sampleReplaced).2.stack .sigchild = false →
          Attended (executed sampleSetup sampleReplaced).2) ∧
      WaitsInformed (executed sampleSetup sampleReplaced).2 := by
  refine deaths_noticed sampleSetup (executed_run (by decide)) fun c hc => ?_
  have hrecorded : ∀ c ∈ (executed sampleSetup sampleReplaced).1, topOp c.pre = some .waitpid →
      ∀ a ∈ c.pre.stack, a.routine = .loop → a.ops = [] := by
    decide
  rintro ⟨pid, -, htop, a, ha, hloop, hhead⟩
  rw [hrecorded c hc htop a ha hloop] at hhead
  cases hhead

/-- The tincd 100 ends before daemon_start goes on behind fork(). -/
def sampleUnrecorded : List Act :=
  [.command .signalOldTincd, .run .failed, .command .startTincd, .run .done, .run (.pid 100),
   .exits 100 false, .deliverSigchld, .run (.pid 100), .run .done, .run .done, .run .done]

theorem death_forgotten :
    Run sampleSetup (executed sampleSetup sampleUnrecorded).1
        (executed sampleSetup sampleUnrecorded).2 ∧
      (executed sampleSetup sampleUnrecorded).2.exited = false ∧
      (executed sampleSetup sampleUnrecorded).2.stack = [⟨.loop, []⟩] ∧
      (executed sampleSetup sampleUnrecorded).2.diPid = some 100 ∧
      ∀ c ∈ (executed sampleSetup sampleUnrecorded).2.children, c.pid ≠ 100 :=
  ⟨executed_run (by decide), by decide, by decide, by decide,
    by decide⟩

end ChaosVpn.DeathWatch
