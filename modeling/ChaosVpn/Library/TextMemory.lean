import Mathlib.Data.List.Basic
import Mathlib.Logic.Function.Basic

/-! Texts with an end mark in a memory. The memory goes on in both directions; which
addresses have been written to is kept beside it, so that the bounds of a buffer are
a matter of these addresses. -/

namespace TextMemory

variable {α : Type}

structure Memory (α : Type) where
  cell : Int → α
  written : List Int

def poke (m : Memory α) (address : Int) (c : α) : Memory α :=
  ⟨Function.update m.cell address c, m.written ++ [address]⟩

def pokeAll (m : Memory α) (address : Int) : List α → Memory α
  | [] => m
  | c :: text => pokeAll (poke m address c) (address + 1) text

/-- The text up to the end mark, which is looked for in so many cells. -/
def readText [DecidableEq α] (mark : α) (cell : Int → α) : Nat → Int → Option (List α)
  | 0, _ => none
  | limit + 1, address =>
    if cell address = mark then some []
    else (readText mark cell limit (address + 1)).map (cell address :: ·)

def Holds (cell : Int → α) (address : Int) : List α → Prop
  | [] => True
  | c :: text => cell address = c ∧ Holds cell (address + 1) text

theorem holds_append {cell : Int → α} {address : Int} {text more : List α} :
    Holds cell address (text ++ more) ↔
      Holds cell address text ∧ Holds cell (address + text.length) more := by
  induction text generalizing address with
  | nil => simp [Holds]
  | cons c text ih =>
    have haddress : address + 1 + (text.length : Int) = address + ((c :: text).length : Int) := by
      simp only [List.length_cons]
      omega
    rw [List.cons_append, Holds, Holds, ih, haddress, and_assoc]

theorem Holds.congr {cell cell' : Int → α} {address : Int} {text : List α}
    (h : Holds cell address text)
    (hsame : ∀ i, address ≤ i → i < address + text.length → cell' i = cell i) :
    Holds cell' address text := by
  induction text generalizing address with
  | nil => trivial
  | cons c text ih =>
    obtain ⟨hc, htext⟩ := h
    simp only [List.length_cons] at hsame
    refine ⟨?_, ih htext fun i hi hlt => hsame i (by omega) (by omega)⟩
    rw [hsame address (by omega) (by omega), hc]

/-! Writing -/

variable {m : Memory α} {address : Int}

theorem poke_cell_of_ne {c : α} {i : Int} (h : i ≠ address) :
    (poke m address c).cell i = m.cell i :=
  Function.update_of_ne h _ _

@[simp] theorem poke_cell (m : Memory α) (address : Int) (c : α) :
    (poke m address c).cell address = c :=
  Function.update_self _ _ _

theorem pokeAll_cell_of_lt {text : List α} {i : Int} (h : i < address) :
    (pokeAll m address text).cell i = m.cell i := by
  induction text generalizing m address with
  | nil => rfl
  | cons c text ih => rw [pokeAll, ih (by omega), poke_cell_of_ne (by omega)]

theorem pokeAll_holds (m : Memory α) (address : Int) (text : List α) :
    Holds (pokeAll m address text).cell address text := by
  induction text generalizing m address with
  | nil => trivial
  | cons c text ih => exact ⟨by rw [pokeAll, pokeAll_cell_of_lt (by omega), poke_cell], ih _ _⟩

theorem mem_written_pokeAll {text : List α} {i : Int} :
    i ∈ (pokeAll m address text).written ↔
      i ∈ m.written ∨ address ≤ i ∧ i < address + text.length := by
  induction text generalizing m address with
  | nil =>
    have hempty : ¬ (address ≤ i ∧ i < address + (([] : List α).length : Int)) := by
      simp only [List.length_nil]
      omega
    rw [pokeAll, or_iff_left hempty]
  | cons c text ih =>
    have hcells : i = address ∨ address + 1 ≤ i ∧ i < address + 1 + text.length ↔
        address ≤ i ∧ i < address + (c :: text).length := by
      simp only [List.length_cons]
      omega
    rw [pokeAll, ih, poke, List.mem_append, List.mem_singleton, or_assoc, hcells]

theorem mem_written_poke {c : α} {i : Int} :
    i ∈ (poke m address c).written ↔ i ∈ m.written ∨ i = address := by
  simp [poke]

/-! Reading -/

variable [DecidableEq α] {mark : α} {cell : Int → α} {text : List α} {limit : Nat}

theorem readText_of_holds (h : Holds cell address (text ++ [mark])) (hmark : mark ∉ text) :
    readText mark cell limit address = if text.length < limit then some text else none := by
  induction limit generalizing address text with
  | zero => rfl
  | succ limit ih =>
    cases text with
    | nil =>
      obtain ⟨hc, -⟩ := h
      simp [readText, hc]
    | cons c text =>
      obtain ⟨hc, htext⟩ := h
      obtain ⟨hne, hmark⟩ : mark ≠ c ∧ mark ∉ text := by simpa using hmark
      rw [readText, hc, if_neg (Ne.symm hne), ih htext hmark]
      by_cases hlimit : text.length < limit <;> simp [hlimit]

end TextMemory
