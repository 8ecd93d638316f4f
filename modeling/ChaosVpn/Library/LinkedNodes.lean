import ChaosVpn.Library.Blocks
import Mathlib.Data.List.Chain
import Mathlib.Logic.Function.Basic

/-! Nodes in memory that are linked both ways. Two nodes are joined by making each the
neighbour of the other; every change of a linked list is a few such joins. A ring is a
walk through the links from a node back to it. -/

namespace LinkedNodes
open Blocks Behaviour

variable {α : Type}

structure Node (α : Type) where
  next : Option α
  prev : Option α
deriving DecidableEq

abbrev Memory (α : Type) := α → Option (Node α)

/-! Accesses through a pointer -/

def next (m : Memory α) (p : Option α) : Behaviour (Option α) :=
  match p.bind m with
  | some node => returns node.next
  | none => outside

def prev (m : Memory α) (p : Option α) : Behaviour (Option α) :=
  match p.bind m with
  | some node => returns node.prev
  | none => outside

def Linked (m : Memory α) (a b : α) : Prop :=
  (m a).map Node.next = some (some b) ∧ (m b).map Node.prev = some (some a)

instance [DecidableEq α] (m : Memory α) (a b : α) : Decidable (Linked m a b) :=
  inferInstanceAs (Decidable (_ ∧ _))

variable {m m' : Memory α} {a b p n : α} {l xs ys : List α}

theorem next_of_linked (h : Linked m a b) : next m (some a) = returns (some b) := by
  obtain ⟨node, hnode, hnext⟩ := Option.map_eq_some_iff.mp h.1
  simp [next, hnode, hnext]

theorem prev_of_linked (h : Linked m a b) : prev m (some b) = returns (some a) := by
  obtain ⟨node, hnode, hprev⟩ := Option.map_eq_some_iff.mp h.2
  simp [prev, hnode, hprev]

theorem Linked.isSome_left (h : Linked m a b) : (m a).isSome := by
  simpa using congrArg Option.isSome h.1

theorem Linked.isSome_right (h : Linked m a b) : (m b).isSome := by
  simpa using congrArg Option.isSome h.2

/-! Walks through the links -/

abbrev Walk (m : Memory α) (l : List α) : Prop := l.IsChain (Linked m)

/-- Memory that agrees on the nodes of a walk has the walk. -/
theorem Walk.congr (h : Walk m l) (hagree : ∀ x ∈ l, m' x = m x) : Walk m' l := by
  refine List.IsChain.imp_of_mem_imp (fun x y hx hy hlinked => ?_) h
  rw [Linked, hagree x hx, hagree y hy]
  exact hlinked

theorem Walk.isSome (h : Walk m (a :: b :: l)) : ∀ x ∈ a :: b :: l, (m x).isSome := by
  induction l generalizing a b with
  | nil =>
    have hlinked := List.isChain_pair.mp h
    simpa using And.intro hlinked.isSome_left hlinked.isSome_right
  | cons c l ih =>
    obtain ⟨hlinked, hrest⟩ := List.isChain_cons_cons.mp h
    exact List.forall_mem_cons.mpr ⟨hlinked.isSome_left, ih hrest⟩

/-- No node twice, but for a last one that is the first. -/
structure Simple (l : List α) : Prop where
  front : l.dropLast.Nodup
  back : l.tail.Nodup

theorem simple_ring {head : α} (h : (head :: l).Nodup) : Simple (head :: l ++ [head]) := by
  constructor
  · rwa [List.dropLast_concat]
  · exact (List.perm_append_singleton head l).nodup_iff.mpr h

theorem Simple.of_sublist (h : Simple l) (hsub : xs.Sublist l) : Simple xs := by
  constructor
  · have hreverse := hsub.reverse.tail
    rw [List.tail_reverse, List.tail_reverse, List.reverse_sublist] at hreverse
    exact h.front.sublist hreverse
  · exact h.back.sublist hsub.tail

theorem Simple.last_notMem (h : Simple (xs ++ [p] ++ n :: ys)) :
    p ∉ xs ∧ p ∉ (n :: ys).dropLast := by
  have hfront := h.front
  rw [List.dropLast_append_of_ne_nil (List.cons_ne_nil n ys), List.append_assoc,
    List.nodup_append] at hfront
  have hp := List.nodup_cons.mp (by simpa using hfront.2.1 : (p :: (n :: ys).dropLast).Nodup)
  exact ⟨fun hmem => hfront.2.2 p hmem p (by simp) rfl, hp.1⟩

theorem Simple.first_notMem (h : Simple (xs ++ [p] ++ n :: ys)) :
    n ∉ (xs ++ [p]).tail ∧ n ∉ ys := by
  have hback := h.back
  rw [List.tail_append_of_ne_nil (by simp), List.nodup_append] at hback
  exact ⟨fun hmem => hback.2.2 n hmem n (by simp) rfl, (List.nodup_cons.mp hback.2.1).1⟩

/-! Joining two nodes -/

variable [DecidableEq α]

def modify (m : Memory α) (p : Option α) (f : Node α → Node α) : Behaviour (Memory α) :=
  match p with
  | some a => if (m a).isSome then returns (Function.update m a ((m a).map f)) else outside
  | none => outside

def setNext (m : Memory α) (p target : Option α) : Behaviour (Memory α) :=
  modify m p fun node => { node with next := target }

def setPrev (m : Memory α) (p target : Option α) : Behaviour (Memory α) :=
  modify m p fun node => { node with prev := target }

theorem modify_returns {f : Node α → Node α} {q : Option α} (h : modify m q f = returns m') :
    ∃ x node, q = some x ∧ m x = some node ∧ m' = Function.update m x (some (f node)) := by
  cases q with
  | none => cases h
  | some x =>
    cases hx : m x with
    | none => simp [modify, hx] at h
    | some node =>
      refine ⟨x, node, rfl, hx, ?_⟩
      simpa [modify, hx, eq_comm] using h

theorem modify_eq (f : Node α → Node α) {node : Node α} (h : m a = some node) :
    modify m (some a) f = returns (Function.update m a (some (f node))) := by
  simp [modify, h]

theorem next_of_setNext {target : Option α} (h : setNext m (some a) target = returns m') :
    next m' (some a) = returns target := by
  obtain ⟨x, node, hx, -, rfl⟩ := modify_returns h
  cases hx
  simp [next]

theorem prev_of_setPrev {target : Option α} (h : setPrev m (some a) target = returns m') :
    prev m' (some a) = returns target := by
  obtain ⟨x, node, hx, -, rfl⟩ := modify_returns h
  cases hx
  simp [prev]

def join (m : Memory α) (a b : α) : Memory α := fun x =>
  (m x).map fun node =>
    { next := if x = a then some b else node.next
      prev := if x = b then some a else node.prev }

@[simp] theorem join_isSome (x : α) : (join m a b x).isSome = (m x).isSome := by
  simp [join]

theorem join_of_ne {x : α} (ha : x ≠ a) (hb : x ≠ b) : join m a b x = m x := by
  cases h : m x <;> simp [join, ha, hb, h]

theorem join_next {x : α} (hx : x ≠ a) : (join m a b x).map Node.next = (m x).map Node.next := by
  cases h : m x <;> simp [join, hx, h]

theorem join_prev {x : α} (hx : x ≠ b) : (join m a b x).map Node.prev = (m x).map Node.prev := by
  cases h : m x <;> simp [join, hx, h]

theorem linked_join (ha : (m a).isSome) (hb : (m b).isSome) : Linked (join m a b) a b := by
  obtain ⟨nodeA, hnodeA⟩ := Option.isSome_iff_exists.mp ha
  obtain ⟨nodeB, hnodeB⟩ := Option.isSome_iff_exists.mp hb
  constructor
  · simp [join, hnodeA]
  · simp [join, hnodeB]

theorem Linked.join {x y : α} (h : Linked m x y) (hx : x ≠ a) (hy : y ≠ b) :
    Linked (join m a b) x y :=
  ⟨(join_next hx).trans h.1, (join_prev hy).trans h.2⟩

/-- The two stores that join nodes, in one order and in the other. -/
theorem setPrev_setNext (ha : (m a).isSome) (hb : (m b).isSome) :
    (setPrev m (some b) (some a) >>= fun m => setNext m (some a) (some b)) =
      returns (join m a b) := by
  have hlive : (Function.update m b ((m b).map fun node => { node with prev := some a }) a).isSome := by
    by_cases h : a = b
    · simp [h, hb]
    · simp [h, ha]
  simp only [setPrev, setNext, modify, if_pos hb, returns_bind, if_pos hlive, returns.injEq]
  funext x
  by_cases hxa : x = a <;> by_cases hxb : x = b <;> cases hx : m x <;>
    simp_all [join, Function.update_apply]

theorem setNext_setPrev (ha : (m a).isSome) (hb : (m b).isSome) :
    (setNext m (some a) (some b) >>= fun m => setPrev m (some b) (some a)) =
      returns (join m a b) := by
  have hlive : (Function.update m a ((m a).map fun node => { node with next := some b }) b).isSome := by
    by_cases h : b = a
    · simp [h, ha]
    · simp [h, hb]
  simp only [setPrev, setNext, modify, if_pos ha, returns_bind, if_pos hlive, returns.injEq]
  funext x
  by_cases hxa : x = a <;> by_cases hxb : x = b <;> cases hx : m x <;>
    simp_all [join, Function.update_apply]

/-- A join leaves a walk alone that goes on from the one node only at its end, and comes to
the other only at its start. -/
theorem Walk.join (h : Walk m l) (ha : a ∉ l.dropLast) (hb : b ∉ l.tail) :
    Walk (join m a b) l := by
  induction l with
  | nil => exact .nil
  | cons x l ih =>
    cases l with
    | nil => exact .singleton x
    | cons y l =>
      rw [List.dropLast_cons_cons, List.mem_cons, not_or] at ha
      rw [List.tail_cons, List.mem_cons, not_or] at hb
      obtain ⟨hxy, hrest⟩ := List.isChain_cons_cons.mp h
      exact List.isChain_cons_cons.mpr ⟨hxy.join (Ne.symm ha.1) (Ne.symm hb.1), ih hrest ha.2 hb.2⟩

/-- The surgery: the end of one walk and the start of another are joined. -/
theorem Walk.append (hxs : Walk m (xs ++ [p])) (hys : Walk m (n :: ys))
    (hsimple : Simple (xs ++ [p] ++ n :: ys)) (hp : (m p).isSome) (hn : (m n).isSome) :
    Walk (LinkedNodes.join m p n) (xs ++ [p] ++ n :: ys) := by
  obtain ⟨hpx, hpy⟩ := hsimple.last_notMem
  obtain ⟨hnx, hny⟩ := hsimple.first_notMem
  refine List.IsChain.append (hxs.join ?_ hnx) (hys.join hpy hny) ?_
  · rwa [List.dropLast_concat]
  · intro x hx y hy
    rw [List.getLast?_concat, Option.mem_some_iff] at hx
    rw [List.head?_cons, Option.mem_some_iff] at hy
    subst hx hy
    exact linked_join hp hn

theorem Walk.cons (h : Walk m (n :: ys)) (hsimple : Simple (p :: n :: ys)) (hp : (m p).isSome)
    (hn : (m n).isSome) : Walk (LinkedNodes.join m p n) (p :: n :: ys) :=
  have hfront : Walk m ([] ++ [p]) := .singleton p
  hfront.append h hsimple hp hn

end LinkedNodes
