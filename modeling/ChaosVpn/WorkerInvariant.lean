import Mathlib.Data.List.Nodup
import ChaosVpn.Worker

/-! What holds of the worker between any two operations: a tincd is a child or is about
to be started, never both, and a process that is no tincd belongs to the activation that
waits for it. -/

namespace ChaosVpn.Worker
open Runs OldDaemon

/-! Children -/

def Context.tincds (ctx : Context) : Nat := ctx.children.countP Child.tincd

variable {setup : Setup} {ctx ctx' : Context} {op : Op} {events : List Event} {ops : List Op}
  {st st' : State} {act : Act}

theorem tincds_fork (ctx : Context) (pid : Nat) (tincd : Bool) :
    (ctx.fork pid tincd).tincds = ctx.tincds + if tincd then 1 else 0 := by
  cases tincd <;> simp [Context.tincds, Context.fork]

theorem tincds_reap_le (ctx : Context) (pid : Nat) : (ctx.reap pid).tincds ≤ ctx.tincds :=
  List.filter_sublist.countP_le

theorem tincds_reap_tincd {c : Child} (hc : c ∈ ctx.children) (htincd : c.tincd = true) :
    (ctx.reap c.pid).tincds + 1 ≤ ctx.tincds := by
  have hsplit := List.countP_eq_countP_filter_add ctx.children Child.tincd fun d => d.pid != c.pid
  have hpos : 0 < (ctx.children.filter fun d => !(d.pid != c.pid)).countP Child.tincd :=
    List.countP_pos_iff.mpr ⟨c, by simp [hc], htincd⟩
  simp only [Context.tincds, Context.reap]
  omega

theorem mem_reap {c : Child} {pid : Nat} :
    c ∈ (ctx.reap pid).children ↔ c ∈ ctx.children ∧ c.pid ≠ pid := by
  simp [Context.reap]

theorem mem_fork {c : Child} {pid : Nat} {tincd : Bool} :
    c ∈ (ctx.fork pid tincd).children ↔ c ∈ ctx.children ∨ c = ⟨pid, tincd, .running⟩ := by
  simp [Context.fork]

theorem nodup_fork {pid : Nat} {tincd : Bool} (h : (ctx.children.map Child.pid).Nodup)
    (hfresh : ctx.fresh pid = true) : ((ctx.fork pid tincd).children.map Child.pid).Nodup := by
  simp only [Context.fork, List.map_append, List.map_cons, List.map_nil, List.nodup_append]
  refine ⟨h, by simp, fun p hp q hq => ?_⟩
  obtain ⟨c, hc, rfl⟩ := List.mem_map.mp hp
  rw [List.mem_singleton.mp hq]
  simpa using List.all_eq_true.mp hfresh c hc

theorem nodup_reap (pid : Nat) (h : (ctx.children.map Child.pid).Nodup) :
    ((ctx.reap pid).children.map Child.pid).Nodup :=
  h.sublist (List.filter_sublist.map _)

/-- The child as it is after another one, or it itself, has ended. -/
theorem mem_childExits {c : Child} {pid : Nat} {fatal : Bool}
    (h : c ∈ (ctx.childExits pid fatal).children) :
    ∃ d ∈ ctx.children, d.pid = c.pid ∧ d.tincd = c.tincd := by
  unfold Context.childExits at h
  split at h
  · exact ⟨c, (mem_reap.mp h).1, rfl, rfl⟩
  · obtain ⟨d, hd, heq⟩ := List.mem_map.mp h
    refine ⟨d, hd, ?_⟩
    split at heq <;> subst heq <;> exact ⟨rfl, rfl⟩

theorem childExits_map {α : Type} (f : Child → α) (pid : Nat) (fatal : Bool)
    (h : ∀ (c : Child) life, f { c with life } = f c) (hignored : ctx.ignored = false) :
    (ctx.childExits pid fatal).children.map f = ctx.children.map f := by
  rw [Context.childExits, hignored, if_neg (by simp), List.map_map]
  refine List.map_congr_left fun c _ => ?_
  simp only [Function.comp]
  split
  · exact h c _
  · rfl

theorem tincds_childExits_le (pid : Nat) (fatal : Bool) :
    (ctx.childExits pid fatal).tincds ≤ ctx.tincds := by
  cases hignored : ctx.ignored with
  | true =>
    rw [Context.childExits, hignored, if_pos rfl]
    exact tincds_reap_le ctx pid
  | false =>
    have hmap := childExits_map Child.tincd pid fatal (fun _ _ => rfl) hignored
    have hcount := congrArg (List.countP id) hmap
    rw [List.countP_map, List.countP_map] at hcount
    exact le_of_eq hcount

theorem nodup_childExits (pid : Nat) (fatal : Bool) (h : (ctx.children.map Child.pid).Nodup) :
    ((ctx.childExits pid fatal).children.map Child.pid).Nodup := by
  cases hignored : ctx.ignored with
  | true =>
    rw [Context.childExits, hignored, if_pos rfl]
    exact nodup_reap pid h
  | false => rwa [childExits_map Child.pid pid fatal (fun _ _ => rfl) hignored]

/-! Operations -/

/-- The operations that lead to the fork of a tincd. -/
def Op.starts : Op → Bool
  | .pipe | .fork | .restart _ => true
  | _ => false

def pendingStarts (stack : List Activation) : Nat :=
  (stack.flatMap Activation.ops).countP Op.starts

theorem pendingStarts_cons (a : Activation) (stack : List Activation) :
    pendingStarts (a :: stack) = a.ops.countP Op.starts + pendingStarts stack := by
  simp [pendingStarts]

def Routine.does : Routine → Op → Bool
  | .loop, .waitpid | .loop, .restart _ => false
  | .loop, _ => true
  | .sigchild, .waitpid | .sigchild, .tincInvokeIfdown | .sigchild, .system _ => true
  | .sigchild, .restart _ | .sigchild, .sleep | .sigchild, .pipe | .sigchild, .fork => true
  | .sigchild, .setPid _ | .sigchild, .exit _ => true
  | .sigchild, _ => false
  | _, .ignoreChild | _, .daemonStop | _, .terminate _ | _, .sleep | _, .kill _ => true
  | _, .exit _ => true
  | _, _ => false

theorem Effect.does (h : Effect setup ctx op events ctx' ops) {r : Routine}
    (hop : r.does op = true) : ∀ o ∈ ops, r.does o = true := by
  cases h with
  | pclose _ hops | exitIfOneshot hops | terminate hops | restart hops =>
    rcases hops with rfl | rfl <;> cases r <;> simp_all [Routine.does, killOldTincd, daemonStart]
  | failed hfailed =>
    rcases hfailed with rfl | rfl <;> cases r <;> simp_all [Routine.does]
  | _ => cases r <;> simp_all [Routine.does, killOldTincd]

theorem Effect.no_waitpid (h : Effect setup ctx op events ctx' ops) : .waitpid ∉ ops := by
  cases h with
  | pclose _ hops | exitIfOneshot hops | terminate hops | restart hops =>
    rcases hops with rfl | rfl <;> simp [killOldTincd, daemonStart]
  | _ => simp [killOldTincd]

theorem Effect.pids (h : Effect setup ctx op events ctx' ops)
    (hpids : (ctx.children.map Child.pid).Nodup) : (ctx'.children.map Child.pid).Nodup := by
  cases h with
  | pidCommand hfresh | fork hfresh | script _ hfresh => exact nodup_fork hpids hfresh
  | pclose | reaped | unknown => exact nodup_reap _ hpids
  | system _ hleft => rcases hleft with rfl | rfl <;> exact nodup_reap _ hpids
  | _ => exact hpids

/-- A tincd becomes a pending start where it is waited for, and is a child again when that
start is made. -/
theorem Effect.single (h : Effect setup ctx op events ctx' ops)
    (hreaped : op = .waitpid → ∀ c ∈ ctx.children, ctx.diPid = some c.pid → c.tincd = true) :
    ctx'.tincds + ops.countP Op.starts ≤ ctx.tincds + [op].countP Op.starts := by
  cases h with
  | pidCommand | fork | script => simp [tincds_fork, Op.starts]
  | @pclose pid ops _ hops =>
    have hle := tincds_reap_le ctx pid
    rcases hops with rfl | rfl <;> simpa [killOldTincd, Op.starts] using hle
  | exitIfOneshot hops | terminate hops | restart hops =>
    rcases hops with rfl | rfl <;> simp [Op.starts, daemonStart]
  | failed hfailed => rcases hfailed with rfl | rfl <;> simp [Op.starts]
  | @system pid left _ hleft =>
    have hle := tincds_reap_le ctx pid
    rcases hleft with rfl | rfl <;> simpa [Op.starts, Context.clear, Context.tincds] using hle
  | @reaped child fatal hmem _ hpid =>
    have hle := tincds_reap_tincd hmem (hreaped rfl child hmem hpid)
    simpa [Op.starts] using hle
  | @unknown child => simpa [Op.starts] using tincds_reap_le ctx child.pid
  | _ => simp [Op.starts, killOldTincd, Context.tincds]

theorem Effect.no_fork (h : Effect setup ctx op events ctx' ops) (hop : op.starts = false)
    (pid : Nat) : .forked pid ∉ events := by
  cases h with
  | fork => cases hop
  | _ => simp

/-- A start comes from another one, or from a tincd that sigchild takes. -/
theorem Effect.starts (h : Effect setup ctx op events ctx' ops) (hop : op.starts = false) :
    ops.countP Op.starts = 0 ∨
      ∃ pid, op = .waitpid ∧ .reaped pid ∈ events ∧ ctx.diPid = some pid := by
  cases h with
  | @reaped child fatal hmem hlife hpid => exact .inr ⟨child.pid, rfl, by simp, hpid⟩
  | pclose _ hops | exitIfOneshot hops | terminate hops | restart hops =>
    left
    rcases hops with rfl | rfl <;> simp_all [Op.starts, killOldTincd]
  | failed hfailed => rcases hfailed with rfl | rfl <;> cases hop
  | _ => left; simp_all [Op.starts, killOldTincd]

/-- waitpid() returns what the system answers. -/
theorem perform_reaped {answer : Answer} {pid : Nat}
    (h : perform setup ctx op answer = some (events, ctx', ops)) (hreaped : .reaped pid ∈ events) :
    op = .waitpid ∧ answer = .pid pid := by
  have hop : op = .waitpid := by
    cases perform_effect h with
    | reaped | unknown => rfl
    | _ => simp at hreaped
  subst hop
  refine ⟨rfl, ?_⟩
  cases answer with
  | done | failed =>
    simp only [perform] at h
    split at h <;> cases h
    cases hreaped
  | pid p =>
    simp only [perform] at h
    split at h
    · cases h
      rw [Event.reaped.inj (List.mem_singleton.mp hreaped)]
    · cases h

theorem reaped_input {pid : Nat} (h : step setup st act = some (events, st'))
    (hreaped : .reaped pid ∈ events) : act = .run (.pid pid) ∧ topOp st = some .waitpid := by
  cases act with
  | run answer =>
    have hrun : runTop setup st answer = some (events, st') := by
      unfold step at h
      split at h
      · cases h
      · exact h
    unfold runTop at hrun
    split at hrun
    · rename_i hstack
      obtain ⟨⟨events, ctx, ops⟩, hperform, heq⟩ := Option.map_eq_some_iff.mp hrun
      cases heq
      obtain ⟨rfl, rfl⟩ := perform_reaped hperform hreaped
      exact ⟨rfl, by rw [topOp, hstack]; rfl⟩
    · split at hrun <;> cases hrun
      cases hreaped
    · cases hrun
  | _ =>
    obtain ⟨-, hstep⟩ := step_cases h
    cases hstep
    cases hreaped

/-! The invariant -/

/-- The activation that waits for a process which is no tincd. -/
def Activation.awaits (a : Activation) (pid : Nat) : Prop :=
  a.ops.head? = some (.system pid) ∨ a.ops.head? = some (.pclose pid)

/-- The operations of HANDLER_SIGNAL_OLD_TINCD that end in a call of pclose(). -/
def Op.asksPid : Op → Bool
  | .tincGetPid | .pclose _ => true
  | _ => false

def Op.setsPid : Op → Bool
  | .setPid _ => true
  | _ => false

/-- Nothing has been started yet. -/
structure Unstarted (st : State) : Prop where
  idle : st.tincds + pendingStarts st.stack = 0
  diPid : st.diPid = none
  setPid : ∀ a ∈ st.stack, ∀ op ∈ a.ops, op.setsPid = false

structure Sound (st : State) : Prop where
  pids : (st.children.map Child.pid).Nodup
  single : st.tincds + pendingStarts st.stack ≤ 1
  routines : (st.stack.map Activation.routine).Nodup
  bottom : ∃ handlers ops, st.stack = handlers ++ [⟨.loop, ops⟩]
  does : ∀ a ∈ st.stack, ∀ op ∈ a.ops, a.routine.does op = true
  waits : ∀ a ∈ st.stack, .waitpid ∈ a.ops → a.ops = [.waitpid]
  unstarted : st.phase = .fresh ∨ st.phase = .signalled → Unstarted st
  signalling : ∀ a ∈ st.stack, ∀ op ∈ a.ops, op.asksPid = true → st.phase = .signalled
  helpers : ∀ c ∈ st.children, c.tincd = false → ∃ a ∈ st.stack, a.awaits c.pid
  exclusive : active st.stack .sigchild = true →
    ∀ a ∈ st.stack, a.routine = .loop → a.inSystem = false

theorem sound_start : Sound startState where
  pids := List.nodup_nil
  single := Nat.zero_le 1
  routines := List.nodup_singleton _
  bottom := ⟨[], [], rfl⟩
  does := by simp [startState]
  waits := by simp [startState]
  unstarted _ := ⟨rfl, rfl, by simp [startState]⟩
  signalling := by simp [startState]
  helpers := by simp [startState]
  exclusive := by simp [startState, active]

variable {routine : Routine} {rest : List Op} {below : List Activation}

/-- Where the loop runs, no handler does. -/
theorem Sound.below_nil (h : Sound st) (hstack : st.stack = ⟨.loop, ops⟩ :: below) : below = [] := by
  obtain ⟨handlers, bottomOps, hbottom⟩ := h.bottom
  have hroutines := h.routines
  rw [hstack] at hbottom hroutines
  cases handlers with
  | nil => exact (List.cons.inj hbottom).2
  | cons a handlers =>
    have hbelow := (List.cons.inj hbottom).2
    rw [hbelow] at hroutines
    simp at hroutines

theorem active_iff {stack : List Activation} {r : Routine} :
    active stack r = true ↔ ∃ a ∈ stack, a.routine = r := by
  simp [active]

theorem inSystem_iff {a : Activation} :
    a.inSystem = true ↔ ∃ pid, a.ops.head? = some (.system pid) := by
  unfold Activation.inSystem
  split
  · rename_i hops
    simp [hops]
  · rename_i hops
    refine iff_of_false (by simp) ?_
    rintro ⟨pid, hhead⟩
    obtain ⟨rest, hrest⟩ := List.head?_eq_some_iff.mp hhead
    exact hops pid rest hrest

theorem Sound.waiter (h : Sound st) {a : Activation} (ha : a ∈ st.stack)
    (hwait : .waitpid ∈ a.ops) : a.routine = .sigchild := by
  have hdoes := h.does a ha _ hwait
  cases hr : a.routine <;> simp_all [Routine.does]

/-- While sigchild waits for a child, no script runs. -/
theorem Sound.not_inSystem (h : Sound st) {a : Activation} (ha : a ∈ st.stack)
    (hwait : .waitpid ∈ a.ops) : ∀ b ∈ st.stack, b.inSystem = false := by
  have hroutine := h.waiter ha hwait
  intro b hb
  cases hsystem : b.inSystem with
  | false => rfl
  | true =>
    obtain ⟨pid, hhead⟩ := inSystem_iff.mp hsystem
    have hdoes := h.does b hb _ (List.mem_of_mem_head? hhead)
    cases hr : b.routine with
    | loop => rw [h.exclusive (active_iff.mpr ⟨a, ha, hroutine⟩) b hb hr] at hsystem; cases hsystem
    | sigchild =>
      have hsame : a = b := List.inj_on_of_nodup_map h.routines ha hb (hroutine.trans hr.symm)
      rw [← hsame, h.waits a ha hwait] at hhead
      cases hhead
    | sigterm | sigint => rw [hr] at hdoes; cases hdoes

/-- The process that di_pid names is a tincd when sigchild waits for it. -/
theorem Sound.reaped_tincd (h : Sound st) {a : Activation} (ha : a ∈ st.stack)
    (hwait : .waitpid ∈ a.ops) {c : Child} (hc : c ∈ st.children) {pid : Nat}
    (hpid : st.diPid = some pid) : c.tincd = true := by
  cases htincd : c.tincd with
  | true => rfl
  | false =>
    obtain ⟨b, hb, hawaits⟩ := h.helpers c hc htincd
    rcases hawaits with hhead | hhead
    · have hsystem := inSystem_iff.mpr ⟨_, hhead⟩
      rw [h.not_inSystem ha hwait b hb] at hsystem
      cases hsystem
    · have hphase := h.signalling b hb _ (List.mem_of_mem_head? hhead) rfl
      rw [(h.unstarted (.inr hphase)).diPid] at hpid
      cases hpid

/-! Operations keep it -/

theorem Effect.diPid (h : Effect setup ctx op events ctx' ops) (hset : op.setsPid = false) :
    ctx'.diPid = ctx.diPid := by
  cases h with
  | setPid => cases hset
  | system _ hleft => rcases hleft with rfl | rfl <;> rfl
  | _ => rfl

theorem Effect.setsPid (h : Effect setup ctx op events ctx' ops) :
    ∀ o ∈ ops, o.setsPid = true → op.starts = true := by
  cases h with
  | pclose _ hops | exitIfOneshot hops | terminate hops | restart hops =>
    rcases hops with rfl | rfl <;> simp [Op.setsPid, killOldTincd, daemonStart]
  | failed hfailed => rcases hfailed with rfl | rfl <;> simp [Op.setsPid]
  | _ => simp [Op.setsPid, Op.starts, killOldTincd]

theorem Effect.asksPid (h : Effect setup ctx op events ctx' ops) :
    ∀ o ∈ ops, o.asksPid = true → op.asksPid = true := by
  cases h with
  | pclose _ hops | exitIfOneshot hops | terminate hops | restart hops =>
    rcases hops with rfl | rfl <;> simp [Op.asksPid, killOldTincd, daemonStart]
  | failed hfailed => rcases hfailed with rfl | rfl <;> simp [Op.asksPid]
  | _ => simp [Op.asksPid, killOldTincd]

/-- A process that is no tincd was there before and is not the one that the operation has
waited for, or it is new and the next operation waits for it. -/
theorem Effect.helper (h : Effect setup ctx op events ctx' ops) {c : Child}
    (hc : c ∈ ctx'.children) (htincd : c.tincd = false) :
    (c ∈ ctx.children ∧ op ≠ .system c.pid ∧ op ≠ .pclose c.pid) ∨
      ops.head? = some (.system c.pid) ∨ ops.head? = some (.pclose c.pid) := by
  cases h with
  | pidCommand | script | fork =>
    rcases mem_fork.mp hc with hc | rfl
    · exact .inl ⟨hc, by simp, by simp⟩
    · simp_all
  | pclose | reaped | unknown =>
    obtain ⟨hc, hne⟩ := mem_reap.mp hc
    exact .inl ⟨hc, by simp, by simp [hne.symm]⟩
  | system _ hleft =>
    rcases hleft with rfl | rfl
    all_goals
      obtain ⟨hc, hne⟩ := mem_reap.mp hc
      exact .inl ⟨hc, by simpa using hne.symm, by simp⟩
  | failed hfailed => rcases hfailed with rfl | rfl <;> exact .inl ⟨hc, by simp, by simp⟩
  | _ => exact .inl ⟨hc, by simp, by simp⟩

theorem Sound.run (h : Sound st) (hstack : st.stack = ⟨routine, op :: rest⟩ :: below)
    (heffect : Effect setup st.toContext op events ctx ops) :
    Sound ⟨ctx, st.phase, ⟨routine, ops ++ rest⟩ :: below⟩ := by
  have htop : (⟨routine, op :: rest⟩ : Activation) ∈ st.stack := hstack ▸ List.mem_cons_self
  have hbelow : ∀ a ∈ below, a ∈ st.stack := fun a ha => hstack ▸ List.mem_cons_of_mem _ ha
  have hreaped : op = .waitpid → ∀ c ∈ st.children, st.diPid = some c.pid → c.tincd = true :=
    fun hop c hc hpid => h.reaped_tincd htop (hop ▸ List.mem_cons_self) hc hpid
  have hcount : ctx.tincds + pendingStarts (⟨routine, ops ++ rest⟩ :: below) ≤
      st.tincds + pendingStarts st.stack := by
    have hle := heffect.single hreaped
    rw [hstack, pendingStarts_cons, pendingStarts_cons, List.countP_append,
      ← List.singleton_append, List.countP_append]
    omega
  refine ⟨heffect.pids h.pids, Nat.le_trans hcount h.single, ?_, ?_, ?_, ?_, ?_, ?_, ?_, ?_⟩
  · have hroutines := h.routines
    rwa [hstack] at hroutines
  · obtain ⟨handlers, bottomOps, hbottom⟩ := h.bottom
    rw [hstack] at hbottom
    cases handlers with
    | nil =>
      obtain ⟨hloop, hnil⟩ := List.cons.inj hbottom
      exact ⟨[], ops ++ rest, by rw [hnil, (Activation.mk.inj hloop).1]; rfl⟩
    | cons a handlers =>
      exact ⟨⟨routine, ops ++ rest⟩ :: handlers, bottomOps, by rw [(List.cons.inj hbottom).2]; rfl⟩
  · refine List.forall_mem_cons.mpr ⟨fun o ho => ?_, fun a ha => h.does a (hbelow a ha)⟩
    rcases List.mem_append.mp ho with ho | ho
    · exact heffect.does (h.does _ htop op List.mem_cons_self) o ho
    · exact h.does _ htop o (List.mem_cons_of_mem _ ho)
  · refine List.forall_mem_cons.mpr ⟨fun ho => ?_, fun a ha => h.waits a (hbelow a ha)⟩
    rcases List.mem_append.mp ho with ho | ho
    · exact absurd ho heffect.no_waitpid
    · have hall := h.waits _ htop (List.mem_cons_of_mem _ ho)
      rw [(List.cons.inj hall).2] at ho
      cases ho
  · intro hphase
    have hunstarted := h.unstarted hphase
    have hset : op.setsPid = false := hunstarted.setPid _ htop op List.mem_cons_self
    have hidle := hunstarted.idle
    refine ⟨Nat.le_zero.mp (hidle ▸ hcount), (heffect.diPid hset).trans hunstarted.diPid, ?_⟩
    refine List.forall_mem_cons.mpr ⟨fun o ho => ?_, fun a ha => hunstarted.setPid a (hbelow a ha)⟩
    rcases List.mem_append.mp ho with ho | ho
    · cases hsets : o.setsPid with
      | false => rfl
      | true =>
        have hstarts := heffect.setsPid o ho hsets
        rw [hstack, pendingStarts_cons, List.countP_cons_of_pos hstarts] at hidle
        omega
    · exact hunstarted.setPid _ htop o (List.mem_cons_of_mem _ ho)
  · refine List.forall_mem_cons.mpr ⟨fun o ho hasks => ?_, fun a ha => h.signalling a (hbelow a ha)⟩
    rcases List.mem_append.mp ho with ho | ho
    · exact h.signalling _ htop op List.mem_cons_self (heffect.asksPid o ho hasks)
    · exact h.signalling _ htop o (List.mem_cons_of_mem _ ho) hasks
  · intro c hc htincd
    rcases heffect.helper hc htincd with ⟨hold, hsystem, hpclose⟩ | hhead
    · obtain ⟨a, ha, hawaits⟩ := h.helpers c hold htincd
      rw [hstack] at ha
      rcases List.mem_cons.mp ha with rfl | ha
      · rcases hawaits with hhead | hhead
        · exact absurd (Option.some.inj hhead) hsystem
        · exact absurd (Option.some.inj hhead) hpclose
      · exact ⟨a, List.mem_cons_of_mem _ ha, hawaits⟩
    · refine ⟨_, List.mem_cons_self, ?_⟩
      rcases hhead with hhead | hhead
      · exact .inl (by simp [List.head?_append, hhead])
      · exact .inr (by simp [List.head?_append, hhead])
  · intro hactive
    refine List.forall_mem_cons.mpr ⟨fun hloop => ?_, fun a ha => ?_⟩
    · have hloop : routine = .loop := hloop
      subst hloop
      rw [h.below_nil hstack] at hactive
      simp [active] at hactive
    · refine h.exclusive ?_ a (hbelow a ha)
      rw [hstack]
      simpa [active] using hactive

theorem Sound.push (h : Sound st) {a : Activation} (hloop : a.routine ≠ .loop)
    (hactive : active st.stack a.routine = false)
    (hdoes : ∀ op ∈ a.ops, a.routine.does op = true) (hwaits : .waitpid ∈ a.ops → a.ops = [.waitpid])
    (hplain : ∀ op ∈ a.ops, op.starts = false ∧ op.asksPid = false ∧ op.setsPid = false)
    (hsystem : a.routine = .sigchild → inSystem st.stack = false) {pending : Bool} :
    Sound { st with pending, stack := a :: st.stack } := by
  have hstarts : a.ops.countP Op.starts = 0 :=
    List.countP_eq_zero.mpr fun op hop => by simp [(hplain op hop).1]
  have hcount : pendingStarts (a :: st.stack) = pendingStarts st.stack := by
    rw [pendingStarts_cons, hstarts, Nat.zero_add]
  refine ⟨h.pids, ?_, ?_, ?_, ?_, ?_, ?_, ?_, ?_, ?_⟩
  · change st.tincds + pendingStarts (a :: st.stack) ≤ 1
    rw [hcount]
    exact h.single
  · refine List.nodup_cons.mpr ⟨fun hmem => ?_, h.routines⟩
    obtain ⟨b, hb, heq⟩ := List.mem_map.mp hmem
    rw [active_iff.mpr ⟨b, hb, heq⟩] at hactive
    cases hactive
  · obtain ⟨handlers, bottomOps, hbottom⟩ := h.bottom
    exact ⟨a :: handlers, bottomOps, congrArg (a :: ·) hbottom⟩
  · exact List.forall_mem_cons.mpr ⟨hdoes, h.does⟩
  · exact List.forall_mem_cons.mpr ⟨hwaits, h.waits⟩
  · intro hphase
    have hunstarted := h.unstarted hphase
    refine ⟨?_, hunstarted.diPid,
      List.forall_mem_cons.mpr ⟨fun op hop => (hplain op hop).2.2, hunstarted.setPid⟩⟩
    change st.tincds + pendingStarts (a :: st.stack) = 0
    rw [hcount]
    exact hunstarted.idle
  · refine List.forall_mem_cons.mpr ⟨fun op hop hasks => ?_, h.signalling⟩
    rw [(hplain op hop).2.1] at hasks
    cases hasks
  · intro c hc htincd
    obtain ⟨b, hb, hawaits⟩ := h.helpers c hc htincd
    exact ⟨b, List.mem_cons_of_mem _ hb, hawaits⟩
  · intro hsigchild
    refine List.forall_mem_cons.mpr ⟨fun hroutine => absurd hroutine hloop, fun b hb hroutine => ?_⟩
    obtain ⟨b', hb', heq⟩ := active_iff.mp hsigchild
    rcases List.mem_cons.mp hb' with rfl | hb'
    · exact Bool.eq_false_iff.mpr fun hin => by
        have hout := hsystem heq
        rw [inSystem, List.any_eq_false] at hout
        exact hout b hb hin
    · exact h.exclusive (active_iff.mpr ⟨b', hb', heq⟩) b hb hroutine

theorem Sound.leave (h : Sound st) (hstack : st.stack = ⟨routine, []⟩ :: below)
    (hloop : routine ≠ .loop) : Sound { st with stack := below } := by
  have hbelow : ∀ a ∈ below, a ∈ st.stack := fun a ha => hstack ▸ List.mem_cons_of_mem _ ha
  have hcount : pendingStarts below = pendingStarts st.stack := by
    rw [hstack, pendingStarts_cons]
    simp
  refine ⟨h.pids, ?_, ?_, ?_, fun a ha => h.does a (hbelow a ha), fun a ha => h.waits a (hbelow a ha),
    ?_, fun a ha => h.signalling a (hbelow a ha), ?_, ?_⟩
  · change st.tincds + pendingStarts below ≤ 1
    rw [hcount]
    exact h.single
  · have hroutines := h.routines
    rw [hstack] at hroutines
    exact (List.nodup_cons.mp hroutines).2
  · obtain ⟨handlers, bottomOps, hbottom⟩ := h.bottom
    rw [hstack] at hbottom
    cases handlers with
    | nil => exact absurd (congrArg Activation.routine (List.cons.inj hbottom).1) hloop
    | cons a handlers => exact ⟨handlers, bottomOps, (List.cons.inj hbottom).2⟩
  · intro hphase
    have hunstarted := h.unstarted hphase
    refine ⟨?_, hunstarted.diPid, fun a ha => hunstarted.setPid a (hbelow a ha)⟩
    change st.tincds + pendingStarts below = 0
    rw [hcount]
    exact hunstarted.idle
  · intro c hc htincd
    obtain ⟨a, ha, hawaits⟩ := h.helpers c hc htincd
    rw [hstack] at ha
    rcases List.mem_cons.mp ha with rfl | ha
    · rcases hawaits with hhead | hhead <;> cases hhead
    · exact ⟨a, ha, hawaits⟩
  · intro hactive a ha
    refine h.exclusive ?_ a (hbelow a ha)
    obtain ⟨b, hb, heq⟩ := active_iff.mp hactive
    exact active_iff.mpr ⟨b, hbelow b hb, heq⟩

/-- The children may change their states, and some may go. -/
theorem Sound.context (h : Sound st) (hpids : (ctx.children.map Child.pid).Nodup)
    (htincds : ctx.tincds ≤ st.tincds) (hdiPid : ctx.diPid = st.diPid)
    (hchildren : ∀ c ∈ ctx.children, ∃ d ∈ st.children, d.pid = c.pid ∧ d.tincd = c.tincd) :
    Sound { st with toContext := ctx } := by
  have hcount : ctx.tincds + pendingStarts st.stack ≤ st.tincds + pendingStarts st.stack := by
    omega
  refine ⟨hpids, Nat.le_trans hcount h.single, h.routines, h.bottom, h.does, h.waits, ?_,
    h.signalling, ?_, h.exclusive⟩
  · intro hphase
    have hunstarted := h.unstarted hphase
    exact ⟨Nat.le_zero.mp (hunstarted.idle ▸ hcount), hdiPid.trans hunstarted.diPid,
      hunstarted.setPid⟩
  · intro c hc htincd
    obtain ⟨d, hd, hpid, htincd'⟩ := hchildren c hc
    obtain ⟨a, ha, hawaits⟩ := h.helpers d hd (htincd'.trans htincd)
    exact ⟨a, ha, hpid ▸ hawaits⟩

theorem next_signalOld {phase phase' : Phase} (h : phase.next .signalOldTincd = some phase') :
    phase' = .signalled := by
  cases phase <;> cases h
  rfl

theorem next_start {phase phase' : Phase} (h : phase.next .startTincd = some phase') :
    phase = .signalled := by
  cases phase <;> cases h
  rfl

theorem next_unstarted {phase phase' : Phase} {c : Command} (h : phase.next c = some phase')
    (hphase : phase' = .fresh ∨ phase' = .signalled) : c = .signalOldTincd ∧ phase = .fresh := by
  cases phase <;> cases c <;> cases h <;> simp_all

theorem Sound.command (h : Sound st) (hstack : st.stack = [⟨.loop, []⟩]) {c : Command}
    {phase : Phase} (hphase : st.phase.next c = some phase) :
    Sound { st with phase, stack := [⟨.loop, commandOps c⟩] } := by
  have hhelpers : ∀ d ∈ st.children, d.tincd = true := by
    intro d hd
    cases htincd : d.tincd with
    | true => rfl
    | false =>
      obtain ⟨a, ha, hawaits⟩ := h.helpers d hd htincd
      rw [hstack, List.mem_singleton] at ha
      subst ha
      rcases hawaits with hhead | hhead <;> cases hhead
  have hstart : c = .startTincd → st.tincds = 0 := by
    rintro rfl
    have hidle := (h.unstarted (.inr (next_start hphase))).idle
    omega
  refine ⟨h.pids, ?_, List.nodup_singleton _, ⟨[], commandOps c, rfl⟩, ?_, ?_, ?_, ?_, ?_, ?_⟩
  · change st.tincds + pendingStarts [⟨.loop, commandOps c⟩] ≤ 1
    have hle := h.single
    cases c with
    | startTincd =>
      rw [hstart rfl]
      decide
    | _ =>
      refine Nat.le_trans (Nat.add_le_add_left ?_ _) hle
      exact Nat.le_trans (by decide) (Nat.zero_le _)
  · cases c <;> simp [commandOps, daemonStart, sigtermOps, Routine.does]
  · cases c <;> simp [commandOps, daemonStart, sigtermOps]
  · intro hnew
    obtain ⟨rfl, hfresh⟩ := next_unstarted hphase hnew
    have hunstarted := h.unstarted (.inl hfresh)
    have hidle := hunstarted.idle
    rw [hstack] at hidle
    exact ⟨hidle, hunstarted.diPid, by simp [commandOps, Op.setsPid]⟩
  · cases c with
    | signalOldTincd =>
      intro a _ op _ _
      exact next_signalOld hphase
    | _ => simp [commandOps, daemonStart, sigtermOps, Op.asksPid]
  · intro d hd htincd
    rw [hhelpers d hd] at htincd
    cases htincd
  · simp [active]

theorem sound_step (h : Sound st) (hstep : Step setup st act events st') : Sound st' := by
  cases hstep with
  | command hstack hphase => exact h.command hstack hphase
  | run hstack heffect => exact h.run hstack heffect
  | leave hstack hloop => exact h.leave hstack hloop
  | @exits pid fatal =>
    refine h.context (nodup_childExits pid fatal h.pids) (tincds_childExits_le pid fatal) ?_
      fun c hc => mem_childExits hc
    rw [Context.childExits]
    split <;> rfl
  | notify => exact h.context h.pids (Nat.le_refl _) rfl fun c hc => ⟨c, hc, rfl, rfl⟩
  | sigchld _ _ hblocked =>
    obtain ⟨hactive, hsystem⟩ := Bool.or_eq_false_iff.mp hblocked
    refine h.push (by simp) hactive (by simp [Routine.does]) (fun _ => rfl) ?_ fun _ => hsystem
    simp [Op.starts, Op.asksPid, Op.setsPid]
  | deliver hr hactive =>
    have hpush : ∀ r, r = .sigterm ∨ r = .sigint → active st.stack r = false →
        Sound { st with pending := st.pending, stack := ⟨r, sigtermOps⟩ :: st.stack } := by
      rintro r (rfl | rfl) hactive
      all_goals
        refine h.push (by simp) hactive ?_ (by simp [sigtermOps]) ?_ (by simp)
        · simp [sigtermOps, Routine.does]
        · simp [sigtermOps, Op.starts, Op.asksPid, Op.setsPid]
    exact hpush _ hr hactive

theorem sound {t : List Call} (run : Run setup t st) : Sound st := by
  refine run.invariant (fun _ => Sound) sound_start ?_
  intro t st act events st' _ h hstep
  exact sound_step h (step_cases hstep).2

end ChaosVpn.Worker
