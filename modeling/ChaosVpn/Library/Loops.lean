import Mathlib.Data.Fintype.Card
import Mathlib.Data.List.Basic

/-! Unbounded loops as the iteration of one pass. A pass either goes round once
more or leaves the loop with a result. Fuel only bounds how far the iteration is
computed: a result is one that some amount of fuel produces, and a loop that no
amount of fuel completes does not terminate. -/

namespace Loops

variable {σ ρ : Type*}

def loop (pass : σ → σ ⊕ ρ) : Nat → σ → Option ρ
  | 0, _ => none
  | fuel + 1, s =>
    match pass s with
    | .inl s' => loop pass fuel s'
    | .inr r => some r

def Returns (pass : σ → σ ⊕ ρ) (s : σ) (r : ρ) : Prop := ∃ fuel, loop pass fuel s = some r

def Terminates (pass : σ → σ ⊕ ρ) (s : σ) : Prop := ∃ r, Returns pass s r

variable {pass : σ → σ ⊕ ρ} {s s' : σ} {r r' : ρ}

theorem returns_of_inl (h : pass s = .inl s') : Returns pass s r ↔ Returns pass s' r := by
  constructor
  · rintro ⟨_ | fuel, hf⟩
    · cases hf
    · exact ⟨fuel, by simpa [loop, h] using hf⟩
  · rintro ⟨fuel, hf⟩
    exact ⟨fuel + 1, by simpa [loop, h] using hf⟩

theorem returns_of_inr (h : pass s = .inr r') : Returns pass s r ↔ r' = r := by
  constructor
  · rintro ⟨_ | fuel, hf⟩
    · cases hf
    · simpa [loop, h] using hf
  · rintro rfl
    exact ⟨1, by simp [loop, h]⟩

theorem terminates_of_inl (h : pass s = .inl s') : Terminates pass s ↔ Terminates pass s' :=
  exists_congr fun _ => returns_of_inl h

theorem terminates_of_inr (h : pass s = .inr r') : Terminates pass s :=
  ⟨r', (returns_of_inr h).mpr rfl⟩

theorem Returns.unique (h : Returns pass s r) (h' : Returns pass s r') : r = r' := by
  obtain ⟨fuel, hf⟩ := h
  induction fuel generalizing s with
  | zero => cases hf
  | succ fuel ih =>
    cases hp : pass s with
    | inl s' => exact ih ((returns_of_inl hp).mp h') (by simpa [loop, hp] using hf)
    | inr x =>
      have hx : x = r := by simpa [loop, hp] using hf
      exact hx.symm.trans ((returns_of_inr hp).mp h')

/-- What every pass keeps holds when the loop is left. -/
theorem Returns.invariant (inv : σ → Prop) (post : ρ → Prop)
    (keeps : ∀ s s', inv s → pass s = .inl s' → inv s')
    (leaves : ∀ s r, inv s → pass s = .inr r → post r) (hs : inv s) (h : Returns pass s r) :
    post r := by
  obtain ⟨fuel, hf⟩ := h
  induction fuel generalizing s with
  | zero => cases hf
  | succ fuel ih =>
    cases hp : pass s with
    | inl s' => exact ih (keeps s s' hs hp) (by simpa [loop, hp] using hf)
    | inr x =>
      have hx : x = r := by simpa [loop, hp] using hf
      exact hx ▸ leaves s x hs hp

/-- The states that the loop comes to. -/
inductive Reaches (pass : σ → σ ⊕ ρ) (s : σ) : σ → Prop
  | refl : Reaches pass s s
  | round {t t' : σ} : Reaches pass s t → pass t = .inl t' → Reaches pass s t'

theorem Reaches.head {t : σ} (h : pass s = .inl s') (hreach : Reaches pass s' t) :
    Reaches pass s t := by
  induction hreach with
  | refl => exact .round .refl h
  | round _ hround ih => exact .round ih hround

theorem Reaches.trans {t u : σ} (h : Reaches pass s t) (h' : Reaches pass t u) :
    Reaches pass s u := by
  induction h' with
  | refl => exact h
  | round _ hround ih => exact .round ih hround

/-- What a loop returns is decided at any of its states. -/
theorem Reaches.returns {t : σ} (h : Reaches pass s t) : Returns pass s r ↔ Returns pass t r := by
  induction h with
  | refl => exact Iff.rfl
  | round _ hround ih => exact ih.trans (returns_of_inl hround)

/-- A loop returns what a pass on one of its states returns. -/
theorem returns_iff_reaches : Returns pass s r ↔ ∃ t, Reaches pass s t ∧ pass t = .inr r := by
  constructor
  · rintro ⟨fuel, hf⟩
    induction fuel generalizing s with
    | zero => cases hf
    | succ fuel ih =>
      cases hp : pass s with
      | inl s' =>
        obtain ⟨t, hreach, ht⟩ := ih (by simpa [loop, hp] using hf)
        exact ⟨t, hreach.head hp, ht⟩
      | inr x =>
        have hx : x = r := by simpa [loop, hp] using hf
        exact ⟨s, .refl, hx ▸ hp⟩
  · rintro ⟨t, hreach, ht⟩
    exact hreach.returns.mpr ((returns_of_inr ht).mpr rfl)

/-- A loop whose state shrinks with every pass leaves it. -/
theorem terminates_of_measure (μ : σ → Nat) (inv : σ → Prop)
    (shrinks : ∀ s s', inv s → pass s = .inl s' → inv s' ∧ μ s' < μ s) (hs : inv s) :
    Terminates pass s := by
  induction hn : μ s using Nat.strongRecOn generalizing s with
  | ind n ih =>
    cases hp : pass s with
    | inl s' =>
      obtain ⟨hs', hlt⟩ := shrinks s s' hs hp
      exact (terminates_of_inl hp).mpr (ih (μ s') (hn ▸ hlt) hs' rfl)
    | inr r => exact terminates_of_inr hp

/-- A loop that finds itself in the same state again after one pass never ends. -/
theorem not_terminates_of_fixed (h : pass s = .inl s) : ¬ Terminates pass s := by
  rintro ⟨r, fuel, hf⟩
  induction fuel with
  | zero => cases hf
  | succ fuel ih => exact ih (by simpa [loop, h] using hf)

/-! Loops with finitely many states -/

theorem loop_of_le {m n : Nat} (h : loop pass m s = some r) (hle : m ≤ n) :
    loop pass n s = some r := by
  induction m generalizing s n with
  | zero => cases h
  | succ m ih =>
    obtain ⟨n, rfl⟩ := Nat.exists_eq_add_of_le' (Nat.one_le_of_lt hle)
    cases hp : pass s with
    | inl s' =>
      have hrest : loop pass m s' = some r := by simpa [loop, hp] using h
      simpa [loop, hp] using ih hrest (Nat.le_of_succ_le_succ hle)
    | inr x => simpa [loop, hp] using h

/-- The fuel that a loop takes from a state. -/
def Takes (pass : σ → σ ⊕ ρ) (s : σ) (r : ρ) (n : Nat) : Prop :=
  loop pass n s = some r ∧ ∀ m < n, loop pass m s = none

theorem Returns.takes (h : Returns pass s r) : ∃ n, Takes pass s r n := by
  classical
  have hexists : ∃ n, loop pass n s = some r := h
  refine ⟨Nat.find hexists, Nat.find_spec hexists, fun m hm => ?_⟩
  cases hloop : loop pass m s with
  | none => rfl
  | some x =>
    have hx : x = r := Returns.unique ⟨m, hloop⟩ h
    exact absurd (hx ▸ hloop) (Nat.find_min hexists hm)

/-- On its way out a loop comes to a state for every smaller fuel. -/
theorem Takes.states {inv : σ → Prop} (keeps : ∀ s s', inv s → pass s = .inl s' → inv s')
    {n : Nat} (hs : inv s) (h : Takes pass s r n) {k : Nat} (hk : 0 < k) (hle : k ≤ n) :
    ∃ t, inv t ∧ Takes pass t r k := by
  induction n generalizing s with
  | zero => omega
  | succ n ih =>
    rcases Nat.lt_or_eq_of_le hle with hlt | rfl
    · cases hp : pass s with
      | inl s' =>
        refine ih (keeps s s' hs hp) ⟨?_, fun m hm => ?_⟩ (Nat.le_of_lt_succ hlt)
        · simpa [loop, hp] using h.1
        · simpa [loop, hp] using h.2 (m + 1) (Nat.succ_lt_succ hm)
      | inr x =>
        have hone : loop pass 1 s = some x := by simp [loop, hp]
        exact absurd (hone.symm.trans (h.2 1 (by omega))) (by simp)
    · exact ⟨s, hs, h⟩

/-- A loop with so many states ends within as many passes, or never. -/
theorem Returns.loop_eq (inv : σ → Prop) {N : Nat} (code : σ → Nat)
    (keeps : ∀ s s', inv s → pass s = .inl s' → inv s') (hlt : ∀ s, inv s → code s < N)
    (hcode : ∀ s t, inv s → inv t → code s = code t → s = t) (hs : inv s)
    (h : Returns pass s r) : loop pass N s = some r := by
  obtain ⟨n, hn⟩ := h.takes
  have hstates : ∀ i : Fin n, ∃ t, inv t ∧ Takes pass t r (i + 1) := fun i =>
    hn.states keeps hs (Nat.succ_pos i) i.2
  choose t hinv htakes using hstates
  have hinjective : Function.Injective fun i : Fin n => (⟨code (t i), hlt _ (hinv i)⟩ : Fin N) := by
    intro i j hij
    have hsame : t i = t j := hcode _ _ (hinv i) (hinv j) (Fin.mk.inj hij)
    rcases Nat.lt_trichotomy i j with hless | heq | hless
    · have hnone := (htakes j).2 (i + 1) (by omega)
      rw [← hsame, (htakes i).1] at hnone
      cases hnone
    · exact Fin.ext heq
    · have hnone := (htakes i).2 (j + 1) (by omega)
      rw [hsame, (htakes j).1] at hnone
      cases hnone
  have hle : n ≤ N := by simpa using Fintype.card_le_of_injective _ hinjective
  exact loop_of_le hn.1 hle

end Loops
