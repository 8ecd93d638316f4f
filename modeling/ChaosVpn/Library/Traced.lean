import Mathlib.Data.List.Basic

/-! Computations that keep the calls they make of some function. One that fails makes
no more calls, and those made before are kept. -/

structure Traced (κ α : Type) where
  calls : List κ
  result : Option α

namespace Traced

variable {κ α β : Type}

def bind (t : Traced κ α) (f : α → Traced κ β) : Traced κ β :=
  match t.result with
  | none => ⟨t.calls, none⟩
  | some a => ⟨t.calls ++ (f a).calls, (f a).result⟩

instance : Monad (Traced κ) where
  pure a := ⟨[], some a⟩
  bind := bind

def ofOption (result : Option α) : Traced κ α := ⟨[], result⟩

/-- The texts of some computations one behind the other. -/
def concat : List (Traced κ (List β)) → Traced κ (List β)
  | [] => pure []
  | t :: ts => do
    let text ← t
    let texts ← concat ts
    pure (text ++ texts)

def All (p : κ → Prop) (t : Traced κ α) : Prop := ∀ c ∈ t.calls, p c

variable {p : κ → Prop} {t : Traced κ α} {f : α → Traced κ β}

@[simp] theorem calls_pure (a : α) : (pure a : Traced κ α).calls = [] := rfl

@[simp] theorem result_pure (a : α) : (pure a : Traced κ α).result = some a := rfl

@[simp] theorem result_ofOption (result : Option α) :
    (ofOption result : Traced κ α).result = result := rfl

@[simp] theorem result_bind : (t >>= f).result = t.result.bind fun a => (f a).result := by
  show (bind t f).result = _
  unfold bind
  cases t.result <;> rfl

@[simp] theorem result_map (g : α → β) : (g <$> t).result = t.result.map g := by
  show (t >>= pure ∘ g).result = _
  rw [result_bind]
  cases t.result <;> rfl

theorem calls_bind_of_result {a : α} (h : t.result = some a) :
    (t >>= f).calls = t.calls ++ (f a).calls := by
  show (bind t f).calls = _
  unfold bind
  rw [h]

theorem calls_subset_bind : t.calls ⊆ (t >>= f).calls := by
  show t.calls ⊆ (bind t f).calls
  unfold bind
  cases t.result with
  | none => exact List.Subset.refl _
  | some a => exact List.subset_append_left _ _

theorem all_pure (a : α) : All p (pure a : Traced κ α) := by simp [All]

theorem all_ofOption (result : Option α) : All p (ofOption result : Traced κ α) := by
  simp [All, ofOption]

theorem All.bind (ht : All p t) (hf : ∀ a, t.result = some a → All p (f a)) :
    All p (t >>= f) := by
  intro c hc
  cases h : t.result with
  | none =>
    have hcalls : (t >>= f).calls = t.calls := by
      show (Traced.bind t f).calls = _
      unfold Traced.bind
      rw [h]
    exact ht c (hcalls ▸ hc)
  | some a =>
    rw [calls_bind_of_result h, List.mem_append] at hc
    exact hc.elim (ht c) (hf a h c)

theorem All.map (ht : All p t) (g : α → β) : All p (g <$> t) :=
  ht.bind fun a _ => all_pure (g a)

theorem All.concat {ts : List (Traced κ (List β))} (h : ∀ t ∈ ts, All p t) :
    All p (concat ts) := by
  induction ts with
  | nil => exact all_pure []
  | cons t ts ih =>
    obtain ⟨ht, hts⟩ := List.forall_mem_cons.mp h
    exact ht.bind fun text _ => (ih hts).bind fun texts _ => all_pure (text ++ texts)

/-- What comes behind computations that succeed makes its calls. -/
theorem mem_calls_concat {front : List (Traced κ (List β))} {last : Traced κ (List β)} {c : κ}
    (hfront : ∀ t ∈ front, t.result.isSome = true) (hc : c ∈ last.calls) :
    c ∈ (concat (front ++ [last])).calls := by
  induction front with
  | nil => exact calls_subset_bind hc
  | cons t front ih =>
    obtain ⟨ht, hfront⟩ := List.forall_mem_cons.mp hfront
    obtain ⟨text, htext⟩ := Option.isSome_iff_exists.mp ht
    rw [List.cons_append, concat, calls_bind_of_result htext]
    exact List.mem_append_right _ (calls_subset_bind (ih hfront))

end Traced
