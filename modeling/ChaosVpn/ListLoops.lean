import ChaosVpn.ListRuns

/-! The loops of list.h. The rounds of a loop are bounded, and running out of them is an
outcome of its own; a body goes on with a state or leaves the loop with a result. -/

namespace ChaosVpn.ListLoops
open Blocks Behaviour LinkedNodes ChaosVpn.Lists ListRuns

variable {α σ ρ : Type} [DecidableEq α]

def loopFrom (step : Option α → Behaviour (Option α)) (head : Option α)
    (body : σ → Option α → Behaviour (σ ⊕ ρ)) : Nat → Option α → σ → Behaviour (σ ⊕ ρ)
  | 0, _, _ => endless
  | fuel + 1, pos, s =>
    if pos = head then returns (.inl s)
    else do
      match ← body s pos with
      | .inl s => loopFrom step head body fuel (← step pos) s
      | .inr r => returns (.inr r)

def listForEach (m : Memory α) (head : Option α) (body : σ → Option α → Behaviour (σ ⊕ ρ))
    (fuel : Nat) (s : σ) : Behaviour (σ ⊕ ρ) := do
  loopFrom (next m) head body fuel (← next m head) s

def listForEachPrev (m : Memory α) (head : Option α) (body : σ → Option α → Behaviour (σ ⊕ ρ))
    (fuel : Nat) (s : σ) : Behaviour (σ ⊕ ρ) := do
  loopFrom (prev m) head body fuel (← prev m head) s

/-- The counter is taken not to overflow. -/
def listCount (m : Memory α) (head : Option α) (fuel : Nat) : Behaviour (Nat ⊕ Empty) :=
  listForEach m head (fun i _ => returns (.inl (i + 1))) fuel 0

/-- The body of a safe loop may change the memory, and take out the entry it is at. -/
def loopSafeFrom (mem : σ → Memory α) (head : Option α) (body : σ → Option α → Behaviour σ) :
    Nat → Option α → Option α → σ → Behaviour σ
  | 0, _, _, _ => endless
  | fuel + 1, pos, n, s =>
    if pos = head then returns s
    else do
      let s ← body s pos
      loopSafeFrom mem head body fuel n (← next (mem s) n) s

def listForEachSafe (mem : σ → Memory α) (head : Option α) (body : σ → Option α → Behaviour σ)
    (fuel : Nat) (s : σ) : Behaviour σ := do
  let pos ← next (mem s) head
  loopSafeFrom mem head body fuel pos (← next (mem s) pos) s

/-! What the loops come to on a ring -/

/-- The body for every entry, until it leaves. -/
def visit (body : σ → Option α → Behaviour (σ ⊕ ρ)) : List α → σ → Behaviour (σ ⊕ ρ)
  | [], s => returns (.inl s)
  | x :: l, s => do
    match ← body s (some x) with
    | .inl s => visit body l s
    | .inr r => returns (.inr r)

variable {m : Memory α} {head x : α} {l : List α} {fuel : Nat} {s : σ}
  {body : σ → Option α → Behaviour (σ ⊕ ρ)}

theorem loopFrom_eq {step : Option α → Behaviour (Option α)}
    (hchain : (l ++ [head]).IsChain fun x y => step (some x) = returns (some y))
    (hhead : head ∉ l) (hfuel : l.length < fuel) :
    loopFrom step (some head) body fuel (l ++ [head]).head? s = visit body l s := by
  induction l generalizing fuel s with
  | nil =>
    obtain ⟨fuel, rfl⟩ := Nat.exists_eq_add_of_lt hfuel
    simp [loopFrom, visit]
  | cons x l ih =>
    obtain ⟨fuel, rfl⟩ := Nat.exists_eq_succ_of_ne_zero (Nat.ne_zero_of_lt hfuel)
    have hx : some x ≠ some head := fun h => hhead (by simp [← Option.some.inj h])
    obtain ⟨n, ys, hn⟩ := exists_first head l
    rw [List.cons_append, hn] at hchain
    obtain ⟨hstep, hrest⟩ := List.isChain_cons_cons.mp hchain
    have ih' := fun s => ih (s := s) (hn ▸ hrest)
      (fun hmem => hhead (List.mem_cons_of_mem _ hmem)) (Nat.lt_of_succ_lt_succ hfuel)
    rw [hn, List.head?_cons] at ih'
    rw [List.cons_append, List.head?_cons, loopFrom, if_neg hx, visit]
    congr 1
    funext result
    cases result with
    | inl s' =>
      simp only [hstep, returns_bind]
      exact ih' s'
    | inr r => rfl

omit [DecidableEq α] in
theorem next_head (h : Ring m head l) : next m (some head) = returns (l ++ [head]).head? := by
  obtain ⟨n, ys, hn⟩ := exists_first head l
  have hwalk : Walk m ([] ++ [head] ++ n :: ys) := by simpa [← hn] using h.walk
  rw [hn, next_of_linked (linked_in_walk hwalk), List.head?_cons]

omit [DecidableEq α] in
theorem next_entry {l₁ l₂ : List α} (h : Ring m head (l₁ ++ x :: l₂)) :
    next m (some x) = returns (l₂ ++ [head]).head? := by
  obtain ⟨n, ys, hn⟩ := exists_first head l₂
  have hwalk : Walk m (head :: l₁ ++ [x] ++ n :: ys) := by simpa [← hn] using h.walk
  rw [hn, next_of_linked (linked_in_walk hwalk), List.head?_cons]

omit [DecidableEq α] in
/-- What a safe loop reads ahead. -/
theorem next_first (h : Ring m head l) : ∃ n, next m (l ++ [head]).head? = returns n ∧
    ∀ x rest, l = x :: rest → n = (rest ++ [head]).head? := by
  cases l with
  | nil => exact ⟨_, next_head h, by simp⟩
  | cons x rest =>
    have h' : Ring m head ([] ++ x :: rest) := h
    refine ⟨_, next_entry h', fun y rest' heq => ?_⟩
    rw [(List.cons.inj heq).2]

theorem listForEach_eq (h : Ring m head l) (hfuel : l.length < fuel) :
    listForEach m (some head) body fuel s = visit body l s := by
  rw [listForEach, next_head h, returns_bind]
  have hwalk : Walk m (l ++ [head]) := List.IsChain.tail h.walk
  exact loopFrom_eq (hwalk.imp fun _ _ hlinked => next_of_linked hlinked)
    (List.nodup_cons.mp h.nodup).1 hfuel

theorem listForEachPrev_eq (h : Ring m head l) (hfuel : l.length < fuel) :
    listForEachPrev m (some head) body fuel s = visit body l.reverse s := by
  obtain ⟨n, ys, hn⟩ := exists_first head l.reverse
  have hback : (head :: (l.reverse ++ [head])).IsChain
      fun x y => prev m (some x) = returns (some y) := by
    have hreverse : head :: (l.reverse ++ [head]) = (head :: l ++ [head]).reverse := by simp
    rw [hreverse, List.isChain_reverse]
    exact List.IsChain.imp (fun _ _ hlinked => prev_of_linked hlinked) h.walk
  have hfirst : prev m (some head) = returns (l.reverse ++ [head]).head? := by
    rw [hn] at hback ⊢
    exact (List.isChain_cons_cons.mp hback).1
  rw [listForEachPrev, hfirst, returns_bind]
  exact loopFrom_eq hback.tail (fun hmem => (List.nodup_cons.mp h.nodup).1 (List.mem_reverse.mp hmem))
    (by simpa using hfuel)

theorem listCount_eq (h : Ring m head l) (hfuel : l.length < fuel) :
    listCount m (some head) fuel = returns (.inl l.length) := by
  have hvisit : ∀ (l : List α) (i : Nat),
      visit (ρ := Empty) (fun i _ => returns (.inl (i + 1))) l i = returns (.inl (i + l.length)) := by
    intro l
    induction l with
    | nil => exact fun _ => rfl
    | cons x l ih =>
      intro i
      rw [visit, returns_bind]
      dsimp only
      rw [ih, List.length_cons, Nat.add_right_comm, Nat.add_assoc]
  rw [listCount, listForEach_eq h hfuel, hvisit, Nat.zero_add]

theorem listIsLast_eq {l₁ l₂ : List α} (h : Ring m head (l₁ ++ x :: l₂)) :
    listIsLast m (some x) (some head) = returns (decide (l₂ = [])) := by
  have hnodup := h.nodup
  rw [listIsLast, next_entry h, returns_bind, pure_eq_returns]
  cases l₂ with
  | nil => simp
  | cons y l₂ =>
    have hne : y ≠ head := by grind
    simp [hne]

/-! Safe loops -/

/-- The rule: the body takes the first entry out and leaves the rest a list. -/
theorem loopSafeFrom_rule {mem : σ → Memory α} {body : σ → Option α → Behaviour σ}
    {P : List α → σ → Prop} (hring : ∀ l s, P l s → Ring (mem s) head l)
    (hbody : ∀ x l s, P (x :: l) s → ∃ s', body s (some x) = returns s' ∧ P l s')
    (hP : P l s) (hfuel : l.length < fuel) {n : Option α}
    (hn : ∀ x rest, l = x :: rest → n = (rest ++ [head]).head?) :
    ∃ s', loopSafeFrom mem (some head) body fuel (l ++ [head]).head? n s = returns s' ∧ P [] s' := by
  induction l generalizing fuel s n with
  | nil =>
    obtain ⟨fuel, rfl⟩ := Nat.exists_eq_succ_of_ne_zero (Nat.ne_zero_of_lt hfuel)
    exact ⟨s, by simp [loopSafeFrom], hP⟩
  | cons x l ih =>
    obtain ⟨fuel, rfl⟩ := Nat.exists_eq_succ_of_ne_zero (Nat.ne_zero_of_lt hfuel)
    have hx : some x ≠ some head := fun h => by
      have hnodup := (hring _ _ hP).nodup
      grind
    obtain ⟨s₁, hs₁, hP₁⟩ := hbody x l s hP
    obtain ⟨n', hn', hnext⟩ := next_first (hring _ _ hP₁)
    obtain ⟨s', hs', hP'⟩ := ih hP₁ (Nat.lt_of_succ_lt_succ hfuel) hnext
    refine ⟨s', ?_, hP'⟩
    rw [List.cons_append, List.head?_cons, loopSafeFrom, if_neg hx, hs₁, returns_bind, hn x l rfl,
      hn', returns_bind, hs']

theorem listForEachSafe_rule {mem : σ → Memory α} {body : σ → Option α → Behaviour σ}
    {P : List α → σ → Prop} (hring : ∀ l s, P l s → Ring (mem s) head l)
    (hbody : ∀ x l s, P (x :: l) s → ∃ s', body s (some x) = returns s' ∧ P l s')
    (hP : P l s) (hfuel : l.length < fuel) :
    ∃ s', listForEachSafe mem (some head) body fuel s = returns s' ∧ P [] s' := by
  obtain ⟨n, hn, hnext⟩ := next_first (hring _ _ hP)
  obtain ⟨s', hs', hP'⟩ := loopSafeFrom_rule hring hbody hP hfuel hnext
  exact ⟨s', by rw [listForEachSafe, next_head (hring _ _ hP), returns_bind, hn, returns_bind, hs'],
    hP'⟩

/-! Loops in a program -/

end ChaosVpn.ListLoops
