import Mathlib.Data.Multiset.MapFold
import Mathlib.Data.Multiset.UnionInter
import Mathlib.Logic.Function.Basic

/-! The cells of a memory as a multiset. A memory that owns some cells holds exactly them,
at one address each, so that a part of the multiset stays as it is whatever happens to the
rest of it. -/

namespace Ownership

variable {κ β : Type*}

structure Owns (m : κ → Option β) (cells : Multiset (κ × β)) : Prop where
  keys : (cells.map Prod.fst).Nodup
  mem_iff : ∀ k b, m k = some b ↔ (k, b) ∈ cells

namespace Owns

variable {m : κ → Option β} {cells : Multiset (κ × β)} {k k' : κ} {b b' : β}

theorem empty : Owns (fun _ => none : κ → Option β) 0 := ⟨by simp, by simp⟩

theorem load (h : Owns m ((k, b) ::ₘ cells)) : m k = some b :=
  (h.mem_iff k b).mpr (Multiset.mem_cons_self _ _)

theorem ne (h : Owns m ((k, b) ::ₘ cells)) (hmem : (k', b') ∈ cells) : k' ≠ k := by
  have hkeys := h.keys
  rw [Multiset.map_cons, Multiset.nodup_cons] at hkeys
  intro heq
  exact hkeys.1 (Multiset.mem_map.mpr ⟨(k', b'), hmem, heq⟩)

theorem isSome_iff (h : Owns m cells) : (m k).isSome = true ↔ ∃ b, (k, b) ∈ cells := by
  rw [Option.isSome_iff_exists]
  exact exists_congr fun b => h.mem_iff k b

variable [DecidableEq κ]

/-- A new cell at an address where nothing is. -/
theorem insert (h : Owns m cells) (hfree : m k = none) (b : β) :
    Owns (Function.update m k (some b)) ((k, b) ::ₘ cells) := by
  have hnew : ∀ b', (k, b') ∉ cells := fun b' hmem => by
    have hsome := (h.mem_iff k b').mpr hmem
    rw [hfree] at hsome
    cases hsome
  refine ⟨?_, fun k' b' => ?_⟩
  · rw [Multiset.map_cons, Multiset.nodup_cons]
    refine ⟨fun hmem => ?_, h.keys⟩
    obtain ⟨⟨k', b'⟩, hcell, rfl⟩ := Multiset.mem_map.mp hmem
    exact hnew b' hcell
  · rw [Multiset.mem_cons]
    by_cases hk : k' = k
    · subst hk
      simp [hnew, eq_comm]
    · simp [hk, h.mem_iff]

theorem remove (h : Owns m ((k, b) ::ₘ cells)) : Owns (Function.update m k none) cells := by
  have hkeys := h.keys
  rw [Multiset.map_cons, Multiset.nodup_cons] at hkeys
  refine ⟨hkeys.2, fun k' b' => ?_⟩
  by_cases hk : k' = k
  · subst hk
    simpa using fun hmem => h.ne hmem rfl
  · simp [hk, h.mem_iff]

theorem store (h : Owns m ((k, b) ::ₘ cells)) (b' : β) :
    Owns (Function.update m k (some b')) ((k, b') ::ₘ cells) := by
  have hinsert := h.remove.insert (Function.update_self ..) b'
  rwa [Function.update_idem] at hinsert

end Owns

end Ownership
