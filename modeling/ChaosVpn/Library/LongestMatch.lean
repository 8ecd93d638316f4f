import Mathlib.Data.List.TakeWhile
import Mathlib.Tactic.Common

/-! Scanners that are given by an ordered list of rules. The rule with the longest match
wins, and of several the earliest; empty matches do not count. A pattern is a sequence of
classes that stand for one element or for any number of them. -/

namespace LongestMatch

variable {α ρ : Type}

inductive Item (α : Type)
  | one (kind : α → Bool)
  | many (kind : α → Bool)

abbrev Pattern (α : Type) := List (Item α)

def literal [DecidableEq α] (word : List α) : Pattern α := word.map fun c => .one (· = c)

def Matches : Pattern α → List α → Prop
  | [], text => text = []
  | .one kind :: p, text => ∃ c rest, text = c :: rest ∧ kind c = true ∧ Matches p rest
  | .many kind :: p, text =>
    ∃ front rest, text = front ++ rest ∧ (∀ c ∈ front, kind c = true) ∧ Matches p rest

def longer : Option Nat → Option Nat → Option Nat
  | some m, some n => some (max m n)
  | some m, none => some m
  | none, n => n

def longestMany (kind : α → Bool) (next : List α → Option Nat) : List α → Option Nat
  | [] => next []
  | c :: text =>
    if kind c then longer ((longestMany kind next text).map (· + 1)) (next (c :: text))
    else next (c :: text)

/-- The length of the longest beginning of a text that matches. -/
def longest : Pattern α → List α → Option Nat
  | [], _ => some 0
  | .one _ :: _, [] => none
  | .one kind :: p, c :: text => if kind c then (longest p text).map (· + 1) else none
  | .many kind :: p, text => longestMany kind (longest p) text

/-- The rule that wins, and how much it matches. -/
def select (pattern : ρ → Pattern α) : List ρ → List α → Option (Nat × ρ)
  | [], _ => none
  | r :: rules, text =>
    match longest (pattern r) text, select pattern rules text with
    | some (n + 1), some (m, q) => if m ≤ n + 1 then some (n + 1, r) else some (m, q)
    | some (n + 1), none => some (n + 1, r)
    | _, best => best

variable {p : Pattern α} {text front rest : List α} {n : Nat} {kind : α → Bool}

/-! The longest match of one pattern -/

theorem longer_eq_some {a b : Option Nat} (h : longer a b = some n) : a = some n ∨ b = some n := by
  cases a with
  | none => exact .inr h
  | some m =>
    cases b with
    | none => exact .inl h
    | some k =>
      rcases Nat.le_total m k with hle | hle
      · exact .inr (by rwa [longer, Nat.max_eq_right hle] at h)
      · exact .inl (by rwa [longer, Nat.max_eq_left hle] at h)

theorem le_longer_left {a b : Option Nat} (h : a = some n) : ∃ m, longer a b = some m ∧ n ≤ m := by
  subst h
  cases b with
  | none => exact ⟨n, rfl, Nat.le_refl n⟩
  | some k => exact ⟨max n k, rfl, Nat.le_max_left n k⟩

theorem le_longer_right {a b : Option Nat} (h : b = some n) : ∃ m, longer a b = some m ∧ n ≤ m := by
  subst h
  cases a with
  | none => exact ⟨n, rfl, Nat.le_refl n⟩
  | some k => exact ⟨max k n, rfl, Nat.le_max_right k n⟩

theorem longest_matches (h : longest p text = some n) :
    ∃ front rest, text = front ++ rest ∧ front.length = n ∧ Matches p front := by
  induction p generalizing text n with
  | nil => exact ⟨[], text, rfl, by simpa [longest] using h, rfl⟩
  | cons item p ih =>
    cases item with
    | one kind =>
      cases text with
      | nil => cases h
      | cons c text =>
        rw [longest] at h
        split at h
        · rename_i hc
          obtain ⟨m, hm, rfl⟩ := Option.map_eq_some_iff.mp h
          obtain ⟨front, rest, rfl, rfl, hfront⟩ := ih hm
          exact ⟨c :: front, rest, rfl, rfl, c, front, rfl, hc, hfront⟩
        · cases h
    | many kind =>
      have hstop : ∀ text n, longest p text = some n → ∃ front rest, text = front ++ rest ∧
          front.length = n ∧ Matches (.many kind :: p) front := by
        intro text n hn
        obtain ⟨front, rest, rfl, rfl, hfront⟩ := ih hn
        exact ⟨front, rest, rfl, rfl, [], front, rfl, by simp, hfront⟩
      rw [longest] at h
      induction text generalizing n with
      | nil => exact hstop [] n h
      | cons c text ihtext =>
        rw [longestMany] at h
        split at h
        · rename_i hc
          rcases longer_eq_some h with h | h
          · obtain ⟨m, hm, rfl⟩ := Option.map_eq_some_iff.mp h
            obtain ⟨-, rest, rfl, rfl, front, back, rfl, hfront, hback⟩ := ihtext hm
            exact ⟨c :: (front ++ back), rest, rfl, rfl, c :: front, back, rfl,
              List.forall_mem_cons.mpr ⟨hc, hfront⟩, hback⟩
          · exact hstop _ n h
        · exact hstop _ n h

theorem le_longest (h : Matches p front) (rest : List α) :
    ∃ m, longest p (front ++ rest) = some m ∧ front.length ≤ m := by
  induction p generalizing front with
  | nil =>
    obtain rfl : front = [] := h
    exact ⟨0, rfl, Nat.le_refl 0⟩
  | cons item p ih =>
    cases item with
    | one kind =>
      obtain ⟨c, front, rfl, hc, hfront⟩ := h
      obtain ⟨m, hm, hle⟩ := ih hfront
      refine ⟨m + 1, ?_, Nat.succ_le_succ hle⟩
      rw [List.cons_append, longest, if_pos hc, hm]
      rfl
    | many kind =>
      obtain ⟨run, back, rfl, hrun, hback⟩ := h
      rw [longest]
      induction run with
      | nil =>
        obtain ⟨m, hm, hle⟩ := ih hback
        rw [List.nil_append]
        cases htext : back ++ rest with
        | nil => exact ⟨m, by rw [longestMany, ← htext, hm], hle⟩
        | cons c text =>
          rw [longestMany, ← htext]
          split
          · obtain ⟨k, hk, hmk⟩ := le_longer_right hm
            exact ⟨k, hk, Nat.le_trans hle hmk⟩
          · exact ⟨m, hm, hle⟩
      | cons c run ihrun =>
        obtain ⟨hc, hrun⟩ := List.forall_mem_cons.mp hrun
        obtain ⟨m, hm, hle⟩ := ihrun hrun
        have hmap : (longestMany kind (longest p) (run ++ back ++ rest)).map (· + 1) =
            some (m + 1) := by
          rw [hm]
          rfl
        obtain ⟨k, hk, hmk⟩ := le_longer_left hmap
        refine ⟨k, ?_, Nat.le_trans (Nat.succ_le_succ hle) hmk⟩
        rw [List.cons_append, List.cons_append, longestMany, if_pos hc]
        exact hk

/-! What patterns match -/

theorem matches_literal_append [DecidableEq α] {word : List α} :
    Matches (literal word ++ p) text ↔ ∃ rest, text = word ++ rest ∧ Matches p rest := by
  induction word generalizing text with
  | nil => simp [literal]
  | cons c word ih =>
    constructor
    · rintro ⟨d, rest, rfl, hd, hrest⟩
      obtain ⟨back, rfl, hback⟩ := ih.mp hrest
      exact ⟨back, by rw [of_decide_eq_true hd, List.cons_append], hback⟩
    · rintro ⟨rest, rfl, hrest⟩
      exact ⟨c, word ++ rest, rfl, by simp, ih.mpr ⟨rest, rfl, hrest⟩⟩

theorem matches_literal [DecidableEq α] {word : List α} :
    Matches (literal word) text ↔ text = word := by
  have h : Matches (literal word ++ []) text ↔ ∃ rest, text = word ++ rest ∧ rest = [] :=
    matches_literal_append
  simpa using h

theorem matches_many (h : ∀ c ∈ text, kind c = true) : Matches [.many kind] text :=
  ⟨text, [], (List.append_nil text).symm, h, rfl⟩

/-- Whether a match can begin with an element. -/
def canStart : Pattern α → α → Bool
  | [], _ => false
  | .one kind :: _, c => kind c
  | .many kind :: p, c => kind c || canStart p c

theorem Matches.canStart {c : α} (h : Matches p (c :: text)) : canStart p c = true := by
  induction p generalizing text with
  | nil => cases h
  | cons item p ih =>
    cases item with
    | one kind =>
      obtain ⟨d, rest, heq, hd, -⟩ := h
      obtain ⟨rfl, -⟩ := List.cons.inj heq
      exact hd
    | many kind =>
      obtain ⟨front, rest, heq, hfront, hrest⟩ := h
      rw [LongestMatch.canStart, Bool.or_eq_true]
      cases front with
      | nil =>
        rw [List.nil_append] at heq
        exact .inr (ih (heq ▸ hrest))
      | cons d front =>
        obtain ⟨rfl, -⟩ := List.cons.inj heq
        exact .inl (hfront c (by simp))

/-- Whether an element can be part of a match. -/
def allowed : Pattern α → α → Bool
  | [], _ => false
  | .one kind :: p, c => kind c || allowed p c
  | .many kind :: p, c => kind c || allowed p c

theorem Matches.allowed (h : Matches p text) : ∀ c ∈ text, allowed p c = true := by
  induction p generalizing text with
  | nil =>
    obtain rfl : text = [] := h
    simp
  | cons item p ih =>
    intro c hc
    cases item with
    | one kind =>
      obtain ⟨d, rest, rfl, hd, hrest⟩ := h
      rw [LongestMatch.allowed, Bool.or_eq_true]
      rcases List.mem_cons.mp hc with rfl | hc
      · exact .inl hd
      · exact .inr (ih hrest c hc)
    | many kind =>
      obtain ⟨front, rest, rfl, hfront, hrest⟩ := h
      rw [LongestMatch.allowed, Bool.or_eq_true]
      rcases List.mem_append.mp hc with hc | hc
      · exact .inl (hfront c hc)
      · exact .inr (ih hrest c hc)

theorem prefix_cases {other : List α} (h : other <+: front ++ rest) :
    other <+: front ∨ ∃ more, more ≠ [] ∧ other = front ++ more ∧ more <+: rest := by
  rcases List.prefix_or_prefix_of_prefix h (List.prefix_append front rest) with h' | ⟨more, rfl⟩
  · exact .inl h'
  · by_cases hmore : more = []
    · subst hmore
      exact .inl (by simp)
    · exact .inr ⟨more, hmore, rfl, (List.prefix_append_right_inj front).mp h⟩

/-- What is made of one kind of elements stops in front of another kind. -/
theorem prefix_of_kind {other : List α} (h : other <+: front ++ rest)
    (hkind : ∀ c ∈ other, kind c = true) (hstop : ∀ c, rest.head? = some c → kind c = false) :
    other <+: front := by
  rcases prefix_cases h with h | ⟨more, hmore, rfl, hrest⟩
  · exact h
  · obtain ⟨c, more, rfl⟩ := List.exists_cons_of_ne_nil hmore
    obtain ⟨back, rfl⟩ := hrest
    have hfalse := hstop c rfl
    rw [hkind c (by simp)] at hfalse
    cases hfalse

/-! The rule that wins -/

structure Wins (pattern : ρ → Pattern α) (before : List ρ) (r : ρ) (after : List ρ)
    (front rest : List α) : Prop where
  nonempty : front ≠ []
  fits : Matches (pattern r) front
  earlier : ∀ q ∈ before, ∀ other, other <+: front ++ rest → Matches (pattern q) other →
    other.length < front.length
  self : ∀ other, other <+: front ++ rest → Matches (pattern r) other →
    other.length ≤ front.length
  later : ∀ q ∈ after, ∀ other, other <+: front ++ rest → Matches (pattern q) other →
    other.length ≤ front.length

variable {pattern : ρ → Pattern α} {rules before after : List ρ} {r : ρ}

theorem longest_eq (hfits : Matches p front)
    (hmax : ∀ other, other <+: front ++ rest → Matches p other → other.length ≤ front.length) :
    longest p (front ++ rest) = some front.length := by
  obtain ⟨m, hm, hle⟩ := le_longest hfits rest
  obtain ⟨other, back, heq, rfl, hother⟩ := longest_matches hm
  have hge := hmax other ⟨back, heq.symm⟩ hother
  rw [hm, Nat.le_antisymm hge hle]

/-- What is selected is a match of one of the rules, and none has a longer one. -/
theorem select_matches (h : select pattern rules text = some (n, r)) :
    r ∈ rules ∧ 0 < n ∧ longest (pattern r) text = some n := by
  induction rules generalizing n r with
  | nil => cases h
  | cons q rules ih =>
    rw [select] at h
    split at h
    · rename_i k m q' hq hrest
      obtain ⟨hmem, hpos, hlongest⟩ := ih hrest
      split at h
      · obtain ⟨rfl, rfl⟩ := Prod.mk.inj (Option.some.inj h)
        exact ⟨by simp, Nat.succ_pos k, hq⟩
      · obtain ⟨rfl, rfl⟩ := Prod.mk.inj (Option.some.inj h)
        exact ⟨by simp [hmem], hpos, hlongest⟩
    · rename_i k hq hrest
      obtain ⟨rfl, rfl⟩ := Prod.mk.inj (Option.some.inj h)
      exact ⟨by simp, Nat.succ_pos k, hq⟩
    · obtain ⟨hmem, hpos, hlongest⟩ := ih h
      exact ⟨by simp [hmem], hpos, hlongest⟩

theorem select_wins (h : Wins pattern before r after front rest) :
    select pattern (before ++ r :: after) (front ++ rest) = some (front.length, r) := by
  have hpos : 0 < front.length := List.length_pos_iff.mpr h.nonempty
  obtain ⟨k, hk⟩ : ∃ k, front.length = k + 1 := ⟨front.length - 1, by omega⟩
  induction before with
  | nil =>
    have hself := longest_eq h.fits h.self
    rw [List.nil_append, select, hself, hk]
    cases hafter : select pattern after (front ++ rest) with
    | none => rfl
    | some best =>
      obtain ⟨m, q⟩ := best
      obtain ⟨hmem, -, hlongest⟩ := select_matches hafter
      obtain ⟨other, back, heq, rfl, hother⟩ := longest_matches hlongest
      have hle := h.later q hmem other ⟨back, heq.symm⟩ hother
      exact if_pos (by omega)
  | cons q before ih =>
    have hrest := ih
      ⟨h.nonempty, h.fits, fun q' hq' => h.earlier q' (by simp [hq']), h.self, h.later⟩
    rw [List.cons_append, select, hrest]
    cases hq : longest (pattern q) (front ++ rest) with
    | none => rfl
    | some m =>
      obtain ⟨other, back, heq, rfl, hother⟩ := longest_matches hq
      have hlt := h.earlier q (by simp) other ⟨back, heq.symm⟩ hother
      cases hm : other.length with
      | zero => rfl
      | succ m => exact if_neg (by omega)

theorem length_le_longest {other : List α} (hother : other <+: text) (hfits : Matches p other) :
    ∃ m, longest p text = some m ∧ other.length ≤ m := by
  obtain ⟨back, rfl⟩ := hother
  exact le_longest hfits back

/-- Rules that cannot begin like the text take no part. -/
theorem select_filter (pattern : ρ → Pattern α) (rules : List ρ) (c : α) (text : List α) :
    select pattern rules (c :: text) =
      select pattern (rules.filter fun r => canStart (pattern r) c) (c :: text) := by
  induction rules with
  | nil => rfl
  | cons q rules ih =>
    rw [List.filter_cons]
    split
    · rw [select, select, ih]
    · rename_i hq
      rw [← ih, select]
      cases hlongest : longest (pattern q) (c :: text) with
      | none => rfl
      | some m =>
        obtain ⟨other, back, heq, rfl, hother⟩ := longest_matches hlongest
        cases other with
        | nil => rfl
        | cons d other =>
          obtain ⟨rfl, -⟩ := List.cons.inj heq
          exact absurd hother.canStart hq

theorem empty_of_select_none (h : select pattern rules text = none) :
    ∀ q ∈ rules, ∀ other, other <+: text → Matches (pattern q) other → other = [] := by
  induction rules with
  | nil => simp
  | cons q rules ih =>
    rw [select] at h
    split at h
    · split at h
      · cases h
      · cases h
    · cases h
    · rename_i _ hnone
      refine List.forall_mem_cons.mpr ⟨fun other hother hfits => ?_, ih h⟩
      obtain ⟨m, hm, hle⟩ := length_le_longest hother hfits
      cases m with
      | zero => exact List.length_eq_zero_iff.mp (Nat.le_zero.mp hle)
      | succ k => exact (hnone k hm h).elim

theorem Wins.length_le (h : Wins pattern before r after front rest) :
    ∀ q ∈ before ++ r :: after, ∀ other, other <+: front ++ rest → Matches (pattern q) other →
      other.length ≤ front.length := by
  intro q hq other hother hfits
  rcases List.mem_append.mp hq with hq | hq
  · exact Nat.le_of_lt (h.earlier q hq other hother hfits)
  · rcases List.mem_cons.mp hq with rfl | hq
    · exact h.self other hother hfits
    · exact h.later q hq other hother hfits

/-- How the selected rule came to win. -/
theorem wins_of_select (h : select pattern rules text = some (n, r)) :
    ∃ before after front rest, rules = before ++ r :: after ∧ text = front ++ rest ∧
      front.length = n ∧ Wins pattern before r after front rest := by
  induction rules generalizing n r with
  | nil => cases h
  | cons q rules ih =>
    have hself : ∀ k, longest (pattern q) text = some k → ∀ other, other <+: text →
        Matches (pattern q) other → other.length ≤ k := by
      intro k hk other hother hfits
      obtain ⟨m, hm, hle⟩ := length_le_longest hother hfits
      rw [← Option.some.inj (hk.symm.trans hm)] at hle
      exact hle
    have hfirst : ∀ k, longest (pattern q) text = some (k + 1) →
        (∀ q' ∈ rules, ∀ other, other <+: text → Matches (pattern q') other →
          other.length ≤ k + 1) →
        ∃ after front rest, q :: rules = [] ++ q :: after ∧ text = front ++ rest ∧
          front.length = k + 1 ∧ Wins pattern [] q after front rest := by
      intro k hk hlater
      obtain ⟨front, rest, rfl, hlength, hfits⟩ := longest_matches hk
      refine ⟨rules, front, rest, rfl, rfl, hlength, ?_, hfits, by simp, ?_, ?_⟩
      · exact List.length_pos_iff.mp (by omega)
      · rw [hlength]
        exact hself (k + 1) hk
      · rw [hlength]
        exact hlater
    have hbehind : ∀ before' after' front rest, rules = before' ++ r :: after' →
        text = front ++ rest → front.length = n → Wins pattern before' r after' front rest →
        (∀ other, other <+: text → Matches (pattern q) other → other.length < n) →
        ∃ before after front rest, q :: rules = before ++ r :: after ∧ text = front ++ rest ∧
          front.length = n ∧ Wins pattern before r after front rest := by
      rintro before' after' front rest rfl rfl rfl hwins hshort
      exact ⟨q :: before', after', front, rest, rfl, rfl, rfl, hwins.nonempty, hwins.fits,
        List.forall_mem_cons.mpr ⟨hshort, hwins.earlier⟩, hwins.self, hwins.later⟩
    rw [select] at h
    split at h
    · rename_i k m q' hq hrest
      obtain ⟨before', after', front, rest, hrules, htext, hlength, hwins⟩ := ih hrest
      split at h
      · rename_i hle
        obtain ⟨rfl, rfl⟩ := Prod.mk.inj (Option.some.inj h)
        obtain ⟨after, hwin⟩ := hfirst k hq fun q hq other hother hfits => by
          have hlonger := hwins.length_le q (hrules ▸ hq) other (htext ▸ hother) hfits
          omega
        exact ⟨[], after, hwin⟩
      · rename_i hlonger
        obtain ⟨rfl, rfl⟩ := Prod.mk.inj (Option.some.inj h)
        refine hbehind before' after' front rest hrules htext hlength hwins ?_
        intro other hother hfits
        have := hself (k + 1) hq other hother hfits
        omega
    · rename_i k hq hrest
      obtain ⟨rfl, rfl⟩ := Prod.mk.inj (Option.some.inj h)
      obtain ⟨after, hwin⟩ := hfirst k hq fun q hq other hother hfits => by
        rw [empty_of_select_none hrest q hq other hother hfits]
        exact Nat.zero_le _
      exact ⟨[], after, hwin⟩
    · rename_i hnot hnone
      obtain ⟨before', after', front, rest, hrules, htext, hlength, hwins⟩ := ih h
      refine hbehind before' after' front rest hrules htext hlength hwins ?_
      intro other hother hfits
      obtain ⟨m, hm, hle⟩ := length_le_longest hother hfits
      have hpos := List.length_pos_iff.mpr hwins.nonempty
      cases m with
      | zero => omega
      | succ k =>
        cases hselect : select pattern rules text with
        | none => exact absurd hselect (hnone k hm)
        | some best => exact absurd hselect (hnot k _ _ hm)

end LongestMatch
