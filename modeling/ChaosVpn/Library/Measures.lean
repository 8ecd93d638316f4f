import ChaosVpn.Library.Runs

/-! How often calls of a kind can come in a run: a measure that no step raises and that
every call of the kind lowers bounds their number. -/

namespace Runs

variable {σ ι ο : Type*} {step : σ → ι → Option (ο × σ)} {start s : σ}
  {t before after : List (Call σ ι ο)}

/-- A run goes on from the state that its first calls reach. -/
theorem Run.suffix (h : Run step start (before ++ after) s) :
    ∃ mid, Run step start before mid ∧ Run step mid after s := by
  generalize ht : before ++ after = t at h
  induction h generalizing after with
  | nil =>
    obtain ⟨rfl, rfl⟩ := List.append_eq_nil_iff.mp ht
    exact ⟨start, .nil, .nil⟩
  | @snoc t s s' i o run hstep ih =>
    rcases List.eq_nil_or_concat after with rfl | ⟨rest, last, rfl⟩
    · rw [List.append_nil] at ht
      exact ⟨s', ht ▸ .snoc run hstep, .nil⟩
    · rw [List.concat_eq_append, ← List.append_assoc] at ht
      obtain ⟨ht, hlast⟩ := List.append_inj' ht rfl
      obtain ⟨mid, hbefore, hafter⟩ := ih ht
      refine ⟨mid, hbefore, ?_⟩
      rw [List.concat_eq_append, List.singleton_inj.mp hlast]
      exact .snoc hafter hstep

/-- Behind a call the run goes on from the state that the call left. -/
theorem Run.behind {c : Call σ ι ο} (h : Run step start (before ++ c :: after) s) :
    Run step start before c.pre ∧ step c.pre c.input = some (c.out, c.post) ∧
      Run step c.post after s := by
  obtain ⟨hbefore, hstep⟩ := h.split rfl
  rw [List.append_cons] at h
  obtain ⟨mid, hmid, hafter⟩ := h.suffix
  exact ⟨hbefore, hstep, hmid.last_post ▸ hafter⟩

section
variable (P : σ → Prop) (measure : σ → Nat) (counted : Call σ ι ο → Bool)

/-- What a step has to do for the measure to bound the calls that are counted. -/
def Lowers (step : σ → ι → Option (ο × σ)) : Prop :=
  ∀ s i o s', P s → step s i = some (o, s') →
    P s' ∧ measure s' + (if counted ⟨s, i, o, s'⟩ then 1 else 0) ≤ measure s

variable {P measure counted}

theorem Run.countP_add_le (hlowers : Lowers P measure counted step) (hstart : P start)
    (h : Run step start t s) : t.countP counted + measure s ≤ measure start := by
  suffices hall : P s ∧ t.countP counted + measure s ≤ measure start from hall.2
  induction h with
  | nil => exact ⟨hstart, by simp⟩
  | snoc _ hstep ih =>
    obtain ⟨hs, hle⟩ := hlowers _ _ _ _ ih.1 hstep
    refine ⟨hs, ?_⟩
    rw [List.countP_append, List.countP_singleton]
    have hsum := ih.2
    omega

/-- Where the measure has one value at the calls of a kind, there is at most one of them. -/
theorem Run.countP_le_one (hlowers : Lowers P measure counted step) (hstart : P start)
    (h : Run step start t s) {kind : Call σ ι ο → Bool} (level : Nat)
    (hkind : ∀ c, P c.pre → step c.pre c.input = some (c.out, c.post) → kind c = true →
      counted c = true ∧ measure c.pre = level) : t.countP kind ≤ 1 := by
  have hreached : Lowers P (fun s => if level ≤ measure s then 1 else 0) kind step := by
    intro s i o s' hs hstep
    obtain ⟨hs', hle⟩ := hlowers s i o s' hs hstep
    refine ⟨hs', ?_⟩
    cases hk : kind ⟨s, i, o, s'⟩ with
    | false => grind
    | true =>
      obtain ⟨hcounted, hlevel⟩ := hkind ⟨s, i, o, s'⟩ hs hstep hk
      rw [hcounted] at hle
      simp only [if_true] at hle ⊢
      dsimp only at hlevel
      split <;> split <;> omega
  have hsum := h.countP_add_le hreached hstart
  have hone : (if level ≤ measure start then 1 else 0) ≤ 1 := by split <;> omega
  omega

end

end Runs
