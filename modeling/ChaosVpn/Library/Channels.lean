import ChaosVpn.Library.Runs

/-! Two machines joined by a first-in first-out channel. Their steps come in any order;
what the one sends is appended to the channel, and some inputs of the other take a message
from its front. A run of the pair gives a run of each machine. -/

namespace Channels
open Runs

variable {σ τ ι κ ο π μ : Type*}

structure Pair (σ τ μ : Type*) where
  sender : σ
  queue : List μ
  receiver : τ

/-- `allowed` says what a step of one machine needs of the other. -/
structure Machines (σ τ ι κ ο π μ : Type*) where
  send : σ → ι → Option (ο × σ)
  sent : ο → List μ
  receive : τ → κ → Option (π × τ)
  takes : κ → Option μ
  allowed : Pair σ τ μ → ι ⊕ κ → Bool

namespace Machines

abbrev PairCall (σ τ ι κ ο π μ : Type*) := Call (Pair σ τ μ) (ι ⊕ κ) (ο ⊕ π)

/-- The sender's part of a call. -/
def senderCall (c : PairCall σ τ ι κ ο π μ) : Option (Call σ ι ο) :=
  match c.input, c.out with
  | .inl i, .inl o => some ⟨c.pre.sender, i, o, c.post.sender⟩
  | _, _ => none

def receiverCall (c : PairCall σ τ ι κ ο π μ) : Option (Call τ κ π) :=
  match c.input, c.out with
  | .inr k, .inr o => some ⟨c.pre.receiver, k, o, c.post.receiver⟩
  | _, _ => none

def senderCalls (t : List (PairCall σ τ ι κ ο π μ)) : List (Call σ ι ο) :=
  t.filterMap senderCall

def receiverCalls (t : List (PairCall σ τ ι κ ο π μ)) : List (Call τ κ π) :=
  t.filterMap receiverCall

def sentBy (m : Machines σ τ ι κ ο π μ) (t : List (PairCall σ τ ι κ ο π μ)) : List μ :=
  (senderCalls t).flatMap fun c => m.sent c.out

def takenBy (m : Machines σ τ ι κ ο π μ) (t : List (PairCall σ τ ι κ ο π μ)) : List μ :=
  (receiverCalls t).filterMap fun c => m.takes c.input

section
variable (m : Machines σ τ ι κ ο π μ) (t : List (PairCall σ τ ι κ ο π μ)) (p p' : Pair σ τ μ)

@[simp] theorem senderCalls_send (i : ι) (o : ο) :
    senderCalls (t ++ [⟨p, .inl i, .inl o, p'⟩]) =
      senderCalls t ++ [⟨p.sender, i, o, p'.sender⟩] := List.filterMap_append

@[simp] theorem senderCalls_receive (k : κ) (o : π) :
    senderCalls (t ++ [⟨p, .inr k, .inr o, p'⟩]) = senderCalls t :=
  List.filterMap_append.trans (List.append_nil _)

@[simp] theorem receiverCalls_send (i : ι) (o : ο) :
    receiverCalls (t ++ [⟨p, .inl i, .inl o, p'⟩]) = receiverCalls t :=
  List.filterMap_append.trans (List.append_nil _)

@[simp] theorem receiverCalls_receive (k : κ) (o : π) :
    receiverCalls (t ++ [⟨p, .inr k, .inr o, p'⟩]) =
      receiverCalls t ++ [⟨p.receiver, k, o, p'.receiver⟩] := List.filterMap_append

@[simp] theorem sentBy_send (i : ι) (o : ο) :
    m.sentBy (t ++ [⟨p, .inl i, .inl o, p'⟩]) = m.sentBy t ++ m.sent o := by simp [sentBy]

@[simp] theorem sentBy_receive (k : κ) (o : π) :
    m.sentBy (t ++ [⟨p, .inr k, .inr o, p'⟩]) = m.sentBy t := by simp [sentBy]

@[simp] theorem takenBy_send (i : ι) (o : ο) :
    m.takenBy (t ++ [⟨p, .inl i, .inl o, p'⟩]) = m.takenBy t := by simp [takenBy]

@[simp] theorem takenBy_receive (k : κ) (o : π) :
    m.takenBy (t ++ [⟨p, .inr k, .inr o, p'⟩]) = m.takenBy t ++ (m.takes k).toList := by
  cases h : m.takes k <;> simp [takenBy, h]

end

variable [DecidableEq μ]

/-- The channel behind an input of the receiver. -/
def behind (m : Machines σ τ ι κ ο π μ) (queue : List μ) (k : κ) : Option (List μ) :=
  match m.takes k, queue with
  | none, queue => some queue
  | some c, d :: queue => if c = d then some queue else none
  | some _, [] => none

def step (m : Machines σ τ ι κ ο π μ) (p : Pair σ τ μ) (i : ι ⊕ κ) :
    Option ((ο ⊕ π) × Pair σ τ μ) :=
  if m.allowed p i then
    match i with
    | .inl i => (m.send p.sender i).map fun (o, s) =>
        (.inl o, { p with sender := s, queue := p.queue ++ m.sent o })
    | .inr k => (m.behind p.queue k).bind fun queue => (m.receive p.receiver k).map fun (o, r) =>
        (.inr o, { p with queue, receiver := r })
  else none

variable {m : Machines σ τ ι κ ο π μ} {start s s' : Pair σ τ μ} {t : List (PairCall σ τ ι κ ο π μ)}
  {i : ι ⊕ κ} {o : ο ⊕ π}

/-- What a step of the pair can do. -/
inductive Step (m : Machines σ τ ι κ ο π μ) (p : Pair σ τ μ) :
    ι ⊕ κ → ο ⊕ π → Pair σ τ μ → Prop
  | send {i : ι} {o : ο} {s : σ} : m.send p.sender i = some (o, s) →
      Step m p (.inl i) (.inl o) { p with sender := s, queue := p.queue ++ m.sent o }
  | receive {k : κ} {o : π} {r : τ} : m.takes k = none → m.receive p.receiver k = some (o, r) →
      Step m p (.inr k) (.inr o) { p with receiver := r }
  | take {k : κ} {o : π} {r : τ} {c : μ} {queue : List μ} : m.takes k = some c →
      p.queue = c :: queue → m.receive p.receiver k = some (o, r) →
      Step m p (.inr k) (.inr o) { p with queue, receiver := r }

theorem step_cases (h : m.step s i = some (o, s')) : m.allowed s i = true ∧ Step m s i o s' := by
  unfold step at h
  split at h
  · rename_i hallowed
    refine ⟨hallowed, ?_⟩
    cases i with
    | inl i =>
      obtain ⟨⟨o, r⟩, hsend, heq⟩ := Option.map_eq_some_iff.mp h
      cases heq
      exact .send hsend
    | inr k =>
      obtain ⟨queue, hbehind, h⟩ := Option.bind_eq_some_iff.mp h
      obtain ⟨⟨o, r⟩, hreceive, heq⟩ := Option.map_eq_some_iff.mp h
      cases heq
      unfold behind at hbehind
      split at hbehind
      · rename_i htakes
        cases hbehind
        exact .receive htakes hreceive
      · rename_i c d queue htakes hqueue
        split at hbehind
        · rename_i hc
          cases hbehind
          exact .take htakes (hc ▸ hqueue) hreceive
        · cases hbehind
      · cases hbehind
  · cases h

/-- The runs of the two machines in a run of the pair. -/
theorem run_sender (run : Run m.step start t s) :
    Run m.send start.sender (senderCalls t) s.sender := by
  induction run with
  | nil => exact .nil
  | snoc _ hstep ih =>
    cases (step_cases hstep).2 with
    | send hsend => rw [senderCalls_send]; exact .snoc ih hsend
    | receive | take => rw [senderCalls_receive]; exact ih

theorem run_receiver (run : Run m.step start t s) :
    Run m.receive start.receiver (receiverCalls t) s.receiver := by
  induction run with
  | nil => exact .nil
  | snoc _ hstep ih =>
    cases (step_cases hstep).2 with
    | send => rw [receiverCalls_send]; exact ih
    | receive _ hreceive | take _ _ hreceive => rw [receiverCalls_receive]; exact .snoc ih hreceive

/-- Nothing is lost, made up or put in another order on the way. -/
theorem sentBy_eq (run : Run m.step start t s) :
    start.queue ++ m.sentBy t = m.takenBy t ++ s.queue := by
  induction run with
  | nil => simp [sentBy, takenBy, senderCalls, receiverCalls]
  | @snoc t s s' i o _ hstep ih =>
    cases (step_cases hstep).2 with
    | send => simp [← List.append_assoc, ih]
    | receive htakes => simpa [htakes] using ih
    | take htakes hqueue => simpa [htakes, hqueue] using ih

end Machines

end Channels
