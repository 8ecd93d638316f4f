import Mathlib.Data.List.Basic

/-! Finite runs of a machine that consumes one input at a time. A step either
stops the machine or produces an output and the next state. The trace of a run
keeps every step with the states around it, so that a property of one step may
speak about everything that happened before it. -/

namespace Runs

variable {σ ι ο : Type*}

structure Call (σ ι ο : Type*) where
  pre : σ
  input : ι
  out : ο
  post : σ

inductive Run (step : σ → ι → Option (ο × σ)) (start : σ) : List (Call σ ι ο) → σ → Prop
  | nil : Run step start [] start
  | snoc {t : List (Call σ ι ο)} {s s' : σ} {i : ι} {o : ο} :
      Run step start t s → step s i = some (o, s') →
        Run step start (t ++ [⟨s, i, o, s'⟩]) s'

namespace Run

variable {step : σ → ι → Option (ο × σ)} {start s : σ} {t : List (Call σ ι ο)}

/-- The induction rule: a property of trace and state that holds at the start
and is kept by every step holds at the end of every run. -/
theorem invariant (P : List (Call σ ι ο) → σ → Prop) (base : P [] start)
    (keep : ∀ t s i o s', Run step start t s → P t s → step s i = some (o, s') →
      P (t ++ [⟨s, i, o, s'⟩]) s')
    (h : Run step start t s) : P t s := by
  induction h with
  | nil => exact base
  | snoc run hstep ih => exact keep _ _ _ _ _ run ih hstep

/-- Every call of a trace was made in a state that the calls before it reach. -/
theorem split {before after : List (Call σ ι ο)} {c : Call σ ι ο}
    (h : Run step start t s) (ht : t = before ++ c :: after) :
    Run step start before c.pre ∧ step c.pre c.input = some (c.out, c.post) := by
  induction h generalizing after with
  | nil => simp at ht
  | @snoc t s s' i o run hstep ih =>
    rcases List.eq_nil_or_concat after with rfl | ⟨rest, last, rfl⟩
    · obtain ⟨rfl, hc⟩ := List.append_inj' ht rfl
      cases List.cons.inj hc |>.1
      exact ⟨run, hstep⟩
    · have h' : t ++ [⟨s, i, o, s'⟩] = (before ++ c :: rest) ++ [last] := by
        simpa using ht
      exact ih (List.append_inj' h' rfl).1

theorem last_post {c : Call σ ι ο} (h : Run step start (t ++ [c]) s) : s = c.post := by
  generalize ht : t ++ [c] = trace at h
  cases h with
  | nil => simp at ht
  | snoc _ _ =>
    obtain ⟨-, hc⟩ := List.append_inj' ht rfl
    cases (List.cons.inj hc).1
    rfl

/-- A step in front of a run. -/
theorem cons {s' : σ} {i : ι} {o : ο} (hstep : step start i = some (o, s'))
    (h : Run step s' t s) : Run step start (⟨start, i, o, s'⟩ :: t) s := by
  induction h with
  | nil => exact .snoc .nil hstep
  | snoc _ hlast ih => exact .snoc ih hlast

end Run

/-! The last call of a kind -/

variable {σ ι ο : Type*}

/-- A call of one kind, and only calls of another kind behind it. -/
def Since (P Q : Call σ ι ο → Prop) (t : List (Call σ ι ο)) : Prop :=
  ∃ before c after, t = before ++ c :: after ∧ P c ∧ ∀ e ∈ after, Q e

theorem Since.snoc {P Q : Call σ ι ο → Prop} {t : List (Call σ ι ο)} (h : Since P Q t)
    {c : Call σ ι ο} (hc : Q c) : Since P Q (t ++ [c]) := by
  obtain ⟨before, d, after, rfl, hd, hafter⟩ := h
  refine ⟨before, d, after ++ [c], by simp, hd, fun e he => ?_⟩
  rcases List.mem_append.mp he with he | he
  · exact hafter e he
  · exact List.mem_singleton.mp he ▸ hc

theorem since_snoc {P Q : Call σ ι ο → Prop} (t : List (Call σ ι ο)) {c : Call σ ι ο} (hc : P c) :
    Since P Q (t ++ [c]) := ⟨t, c, [], rfl, hc, by simp⟩

/-- Where the calls up to the last one are cut, the last one is the cut or behind it. -/
theorem snoc_split {t before mid : List (Call σ ι ο)} {c d : Call σ ι ο}
    (h : t ++ [c] = before ++ d :: mid) :
    (t = before ∧ c = d ∧ mid = []) ∨ ∃ mid', t = before ++ d :: mid' ∧ mid = mid' ++ [c] := by
  rcases List.eq_nil_or_concat mid with rfl | ⟨mid', last, rfl⟩
  · obtain ⟨ht, hc⟩ := List.append_inj' h rfl
    exact .inl ⟨ht, (List.cons.inj hc).1, rfl⟩
  · have h' : t ++ [c] = (before ++ d :: mid') ++ [last] := by simpa using h
    obtain ⟨ht, hc⟩ := List.append_inj' h' rfl
    exact .inr ⟨mid', ht, by rw [(List.cons.inj hc).1, List.concat_eq_append]⟩

/-- The run that the inputs make, unless the machine stops on one of them. -/
def execute (step : σ → ι → Option (ο × σ)) : σ → List ι → Option (List (Call σ ι ο) × σ)
  | s, [] => some ([], s)
  | s, i :: inputs =>
    (step s i).bind fun (o, s') =>
      (execute step s' inputs).map fun (t, last) => (⟨s, i, o, s'⟩ :: t, last)

theorem run_of_execute {step : σ → ι → Option (ο × σ)} {start s : σ} {inputs : List ι}
    {t : List (Call σ ι ο)} (h : execute step start inputs = some (t, s)) : Run step start t s := by
  induction inputs generalizing start t with
  | nil =>
    cases Option.some.inj h
    exact .nil
  | cons i inputs ih =>
    obtain ⟨⟨o, s'⟩, hstep, hrest⟩ := Option.bind_eq_some_iff.mp h
    obtain ⟨⟨t', last⟩, hexecute, heq⟩ := Option.map_eq_some_iff.mp hrest
    cases heq
    exact .cons hstep (ih hexecute)

end Runs
