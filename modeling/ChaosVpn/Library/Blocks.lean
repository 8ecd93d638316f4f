import Mathlib.Data.List.Basic

/-! Computations on blocks of memory. One that leaves its block goes no further, and neither
does one that never ends or that ends the program. -/

namespace Blocks

variable {α β γ : Type}

inductive Behaviour (α : Type)
  | returns (value : α)
  | outside
  | endless
  | exits

namespace Behaviour

def bind (b : Behaviour α) (f : α → Behaviour β) : Behaviour β :=
  match b with
  | returns value => f value
  | outside => outside
  | endless => endless
  | exits => exits

instance : Monad Behaviour where
  pure := returns
  bind := bind

@[simp] theorem returns_bind (value : α) (f : α → Behaviour β) :
    (returns value >>= f) = f value := rfl

@[simp] theorem outside_bind (f : α → Behaviour β) : (outside >>= f) = outside := rfl

@[simp] theorem endless_bind (f : α → Behaviour β) : (endless >>= f) = endless := rfl

@[simp] theorem exits_bind (f : α → Behaviour β) : (exits >>= f) = exits := rfl

@[simp] theorem pure_eq_returns (value : α) : (pure value : Behaviour α) = returns value := rfl

theorem bind_eq_returns {b : Behaviour α} {f : α → Behaviour β} {value : β} :
    (b >>= f) = returns value ↔ ∃ a, b = returns a ∧ f a = returns value := by
  cases b <;> simp

/-- The result of a loop, which may have none. -/
def ofLoop : Option α → Behaviour α
  | some value => returns value
  | none => endless

end Behaviour

open Behaviour

/-- Writing into a block; nothing can be written anywhere. -/
def overwrite (cells : List α) (index : Nat) (values : List α) : Behaviour (List α) :=
  if values.isEmpty ∨ index + values.length ≤ cells.length then
    returns (cells.take index ++ values ++ cells.drop (index + values.length))
  else outside

/-- Reading from the start of a block. -/
def fetch (cells : List α) (length : Nat) : Behaviour (List α) :=
  if length ≤ cells.length then returns (cells.take length) else outside

theorem overwrite_append (front back values : List α) (h : values.length ≤ back.length) :
    overwrite (front ++ back) front.length values =
      returns (front ++ values ++ back.drop values.length) := by
  have hroom : front.length + values.length ≤ (front ++ back).length := by
    rw [List.length_append]
    omega
  rw [overwrite, if_pos (.inr hroom), List.take_left, List.drop_length_add_append]

theorem overwrite_returns {cells values cells' : List α} {index : Nat}
    (h : overwrite cells index values = returns cells') :
    cells'.length = cells.length ∧ (values = [] ∨ index + values.length ≤ cells.length) := by
  unfold overwrite at h
  split at h
  · rename_i hroom
    cases h
    rcases hroom with hempty | hroom
    · obtain rfl := List.isEmpty_iff.mp hempty
      simp
    · refine ⟨?_, .inr hroom⟩
      simp only [List.length_append, List.length_take, List.length_drop]
      omega
  · cases h

theorem fetch_returns {cells values : List α} {length : Nat}
    (h : fetch cells length = returns values) : values.length = length ∧ values <+: cells := by
  unfold fetch at h
  split at h
  · cases h
    exact ⟨List.length_take_of_le ‹_›, List.take_prefix _ _⟩
  · cases h

end Blocks
