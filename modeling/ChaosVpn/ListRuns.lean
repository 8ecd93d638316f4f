import ChaosVpn.Lists
import Mathlib.Data.Set.Insert

/-! What a program does with its lists: a run of functions of list.h, and the sequences of
entries that it makes of them. -/

namespace ChaosVpn.ListRuns
open Blocks Behaviour LinkedNodes ChaosVpn.Lists

variable {α : Type} [DecidableEq α]

/-! Lists as sequences -/

/-- The nodes in memory, and of every head the entries. -/
structure Contents (α : Type) where
  nodes : Set α
  entries : α → Option (List α)

namespace Contents

def empty : Contents α := ⟨∅, fun _ => none⟩

def Holds (s : Contents α) (head x : α) : Prop := ∃ l, s.entries head = some l ∧ x ∈ head :: l

def Used (s : Contents α) (x : α) : Prop := ∃ head, s.Holds head x

def put (s : Contents α) (head : α) (l : List α) : Contents α :=
  { s with entries := Function.update s.entries head (some l) }

def drop (s : Contents α) (head : α) : Contents α :=
  { s with entries := Function.update s.entries head none }

end Contents

/-- Every list is a ring of its own. -/
structure Represents (m : Memory α) (s : Contents α) : Prop where
  live : ∀ x, (m x).isSome ↔ x ∈ s.nodes
  ring : ∀ head l, s.entries head = some l → Ring m head l
  apart : ∀ head head' x, s.Holds head x → s.Holds head' x → head = head'

inductive Op (α : Type)
  | initListHead (list : α)
  | listAdd (new head : α)
  | listAddTail (new head : α)
  | listDel (entry : α)
  | listReplace (old new : α)
  | listReplaceInit (old new : α)
  | listDelInit (entry : α)
  | listMove (list head : α)
  | listMoveTail (list head : α)
  | listSplice (list head : α)
  | listSpliceInit (list head : α)
  | malloc (node : α)
  | free (node : α)

def perform (m : Memory α) : Op α → Behaviour (Memory α)
  | .initListHead list => initListHead m (some list)
  | .listAdd new head => listAdd m (some new) (some head)
  | .listAddTail new head => listAddTail m (some new) (some head)
  | .listDel entry => listDel m (some entry)
  | .listReplace old new => listReplace m (some old) (some new)
  | .listReplaceInit old new => listReplaceInit m (some old) (some new)
  | .listDelInit entry => listDelInit m (some entry)
  | .listMove list head => listMove m (some list) (some head)
  | .listMoveTail list head => listMoveTail m (some list) (some head)
  | .listSplice list head => listSplice m (some list) (some head)
  | .listSpliceInit list head => listSpliceInit m (some list) (some head)
  | .malloc node => returns (Function.update m node (some ⟨none, none⟩))
  | .free node => if (m node).isSome then returns (Function.update m node none) else outside

/-- What a program may do with its lists, and what it has of them afterwards. A head that is
no longer one, and an entry taken out, are nodes in no list. -/
inductive Step : Contents α → Op α → Contents α → Prop
  | initListHead {s : Contents α} {list : α} (live : list ∈ s.nodes)
      (free : ¬ s.Used list ∨ s.Holds list list) : Step s (.initListHead list) (s.put list [])
  | listAdd {s : Contents α} {new head : α} {l : List α} (live : new ∈ s.nodes)
      (free : ¬ s.Used new) (list : s.entries head = some l) :
      Step s (.listAdd new head) (s.put head (new :: l))
  | listAddTail {s : Contents α} {new head : α} {l : List α} (live : new ∈ s.nodes)
      (free : ¬ s.Used new) (list : s.entries head = some l) :
      Step s (.listAddTail new head) (s.put head (l ++ [new]))
  | listDel {s : Contents α} {head entry : α} {l₁ l₂ : List α}
      (list : s.entries head = some (l₁ ++ entry :: l₂)) :
      Step s (.listDel entry) (s.put head (l₁ ++ l₂))
  | listReplace {s : Contents α} {head old new : α} {l₁ l₂ : List α} (live : new ∈ s.nodes)
      (free : ¬ s.Used new) (list : s.entries head = some (l₁ ++ old :: l₂)) :
      Step s (.listReplace old new) (s.put head (l₁ ++ new :: l₂))
  | listReplaceHead {s : Contents α} {old new : α} {l : List α} (live : new ∈ s.nodes)
      (free : ¬ s.Used new) (list : s.entries old = some l) :
      Step s (.listReplace old new) ((s.drop old).put new l)
  | listReplaceInit {s s' : Contents α} {old new : α} (replace : Step s (.listReplace old new) s') :
      Step s (.listReplaceInit old new) (s'.put old [])
  | listDelInit {s s' : Contents α} {entry : α} (del : Step s (.listDel entry) s') :
      Step s (.listDelInit entry) (s'.put entry [])
  | listMove {s s' s'' : Contents α} {list head : α} (del : Step s (.listDel list) s')
      (add : Step s' (.listAdd list head) s'') : Step s (.listMove list head) s''
  | listMoveTail {s s' s'' : Contents α} {list head : α} (del : Step s (.listDel list) s')
      (add : Step s' (.listAddTail list head) s'') : Step s (.listMoveTail list head) s''
  | listSplice {s : Contents α} {list head : α} {k l : List α} (ne : list ≠ head)
      (entries : s.entries list = some k) (onto : s.entries head = some l) :
      Step s (.listSplice list head) ((s.drop list).put head (k ++ l))
  | listSpliceInit {s s' : Contents α} {list head : α} (splice : Step s (.listSplice list head) s') :
      Step s (.listSpliceInit list head) (s'.put list [])
  | malloc {s : Contents α} {node : α} (fresh : node ∉ s.nodes) :
      Step s (.malloc node) { s with nodes := insert node s.nodes }
  | free {s : Contents α} {node : α} (live : node ∈ s.nodes) (free : ¬ s.Used node) :
      Step s (.free node) { s with nodes := s.nodes \ {node} }

inductive Steps : Contents α → List (Op α) → Contents α → Prop
  | nil {s : Contents α} : Steps s [] s
  | cons {s s' s'' : Contents α} {op : Op α} {ops : List (Op α)} :
      Step s op s' → Steps s' ops s'' → Steps s (op :: ops) s''

/-! What a ring may take over: nodes in no list, and those of the ring before -/

variable {m m' : Memory α} {s s' : Contents α} {head new entry x : α} {l l₁ l₂ touched : List α}

def Available (s : Contents α) (head x : α) : Prop := ¬ s.Used x ∨ s.Holds head x

omit [DecidableEq α] in
theorem available_of_mem (h : s.entries head = some l) (hx : x ∈ head :: l) :
    Available s head x := .inr ⟨l, h, hx⟩

theorem entries_put (s : Contents α) (head head' : α) (l : List α) :
    (s.put head l).entries head' = if head' = head then some l else s.entries head' :=
  Function.update_apply ..

theorem entries_drop (s : Contents α) (head head' : α) :
    (s.drop head).entries head' = if head' = head then none else s.entries head' :=
  Function.update_apply ..

theorem holds_put {head' : α} : (s.put head l).Holds head' x ↔
    if head' = head then x ∈ head :: l else s.Holds head' x := by
  by_cases h : head' = head
  · simp [Contents.Holds, entries_put, h]
  · simp [Contents.Holds, entries_put, h]

theorem holds_drop {head' : α} : (s.drop head).Holds head' x ↔ head' ≠ head ∧ s.Holds head' x := by
  by_cases h : head' = head
  · simp [Contents.Holds, entries_drop, h]
  · simp [Contents.Holds, entries_drop, h]

namespace Represents

omit [DecidableEq α] in
theorem head_eq (h : Represents m s) {head' : α} (hx : Available s head x) (hx' : s.Holds head' x) :
    head' = head :=
  hx.elim (fun hfree => absurd ⟨head', hx'⟩ hfree) fun hown => h.apart _ _ x hx' hown

/-- The rule for all changes of one list. -/
theorem put (h : Represents m s) (hring : Ring m' head l) (hwithin : Within touched m m')
    (hsub : head :: l ⊆ touched) (htouched : ∀ x ∈ touched, Available s head x) :
    Represents m' (s.put head l) := by
  refine ⟨fun x => (hwithin.live x) ▸ h.live x, fun head' l' hl' => ?_, fun h₁ h₂ x hx₁ hx₂ => ?_⟩
  · rw [entries_put] at hl'
    split at hl'
    · rename_i hhead
      exact hhead ▸ Option.some.inj hl' ▸ hring
    · rename_i hhead
      refine (h.ring head' l' hl').congr fun x hx => hwithin.others x fun hmem => hhead ?_
      exact h.head_eq (htouched x hmem) ⟨l', hl', hx⟩
  · have hone : ∀ head', (s.put head l).Holds head' x → x ∈ head :: l → head' = head := by
      intro head' hx hmem
      by_contra hhead
      rw [holds_put, if_neg hhead] at hx
      exact hhead (h.head_eq (htouched x (hsub hmem)) hx)
    by_cases h₁' : h₁ = head
    · rw [holds_put, if_pos h₁'] at hx₁
      exact h₁'.trans (hone h₂ hx₂ hx₁).symm
    · by_cases h₂' : h₂ = head
      · rw [holds_put, if_pos h₂'] at hx₂
        exact (hone h₁ hx₁ hx₂).trans h₂'.symm
      · rw [holds_put, if_neg h₁'] at hx₁
        rw [holds_put, if_neg h₂'] at hx₂
        exact h.apart h₁ h₂ x hx₁ hx₂

theorem drop (h : Represents m s) (head : α) : Represents m (s.drop head) := by
  refine ⟨h.live, fun head' l' hl' => ?_, fun h₁ h₂ x hx₁ hx₂ => ?_⟩
  · rw [entries_drop] at hl'
    split at hl'
    · cases hl'
    · exact h.ring head' l' hl'
  · exact h.apart h₁ h₂ x (holds_drop.mp hx₁).2 (holds_drop.mp hx₂).2

theorem not_used_put (h : Represents m s) (hx : Available s head x) (hout : x ∉ head :: l) :
    ¬ (s.put head l).Used x := by
  rintro ⟨head', hholds⟩
  rw [holds_put] at hholds
  split at hholds
  · exact hout hholds
  · exact absurd (h.head_eq hx hholds) ‹_›

theorem not_used_drop (h : Represents m s) (hx : Available s head x) : ¬ (s.drop head).Used x := by
  rintro ⟨head', hholds⟩
  obtain ⟨hne, hholds⟩ := holds_drop.mp hholds
  exact hne (h.head_eq hx hholds)

/-! One change each -/

theorem init (h : Represents m s) (hlive : head ∈ s.nodes) (hfree : Available s head head) :
    ∃ m', initListHead m (some head) = returns m' ∧ Represents m' (s.put head []) := by
  obtain ⟨m', hm', hring, hwithin⟩ := Ring.init ((h.live head).mpr hlive)
  exact ⟨m', hm', h.put hring hwithin (by simp) (by simpa using hfree)⟩

theorem add (h : Represents m s) (hlive : new ∈ s.nodes) (hfree : ¬ s.Used new)
    (hlist : s.entries head = some l) :
    ∃ m', listAdd m (some new) (some head) = returns m' ∧
      Represents m' (s.put head (new :: l)) := by
  have hfresh : new ∉ head :: l := fun hmem => hfree ⟨head, l, hlist, hmem⟩
  obtain ⟨m', hm', hring, hwithin⟩ := (h.ring head l hlist).add ((h.live new).mpr hlive) hfresh
  refine ⟨m', hm', h.put hring hwithin (by grind) (List.forall_mem_cons.mpr ⟨.inl hfree, ?_⟩)⟩
  exact fun x hx => available_of_mem hlist hx

theorem addTail (h : Represents m s) (hlive : new ∈ s.nodes) (hfree : ¬ s.Used new)
    (hlist : s.entries head = some l) :
    ∃ m', listAddTail m (some new) (some head) = returns m' ∧
      Represents m' (s.put head (l ++ [new])) := by
  have hfresh : new ∉ head :: l := fun hmem => hfree ⟨head, l, hlist, hmem⟩
  obtain ⟨m', hm', hring, hwithin⟩ := (h.ring head l hlist).addTail ((h.live new).mpr hlive) hfresh
  refine ⟨m', hm', h.put hring hwithin (by grind) (List.forall_mem_cons.mpr ⟨.inl hfree, ?_⟩)⟩
  exact fun x hx => available_of_mem hlist hx

theorem remove (h : Represents m s) (hlist : s.entries head = some (l₁ ++ entry :: l₂)) :
    ∃ p n m', prev m (some entry) = returns (some p) ∧ next m (some entry) = returns (some n) ∧
      internalListDel m (some p) (some n) = returns m' ∧
      Represents m' (s.put head (l₁ ++ l₂)) := by
  obtain ⟨p, n, m', hp, hn, hm', hring, hwithin⟩ := (h.ring head _ hlist).remove
  refine ⟨p, n, m', hp, hn, hm', h.put hring hwithin (List.Subset.refl _) fun x hx => ?_⟩
  exact available_of_mem hlist (by grind)

theorem not_used_remove (h : Represents m s) (hlist : s.entries head = some (l₁ ++ entry :: l₂)) :
    ¬ (s.put head (l₁ ++ l₂)).Used entry := by
  refine h.not_used_put (available_of_mem hlist (by simp)) ?_
  have hnodup := (h.ring head _ hlist).nodup
  grind

theorem replace {old : α} (h : Represents m s) (hstep : Step s (.listReplace old new) s') :
    ∃ m', listReplace m (some old) (some new) = returns m' ∧ Represents m' s' ∧
      old ∈ s'.nodes ∧ ¬ s'.Used old := by
  cases hstep with
  | @listReplace _ head _ _ l₁ l₂ hlive hfree hlist =>
    have hring := h.ring head _ hlist
    have hfresh : new ∉ head :: (l₁ ++ old :: l₂) := fun hmem => hfree ⟨head, _, hlist, hmem⟩
    obtain ⟨m', hm', hring', hwithin⟩ := hring.replaceEntry ((h.live new).mpr hlive) hfresh
    have hnodup := hring.nodup
    refine ⟨m', hm', h.put hring' hwithin (by grind) (List.forall_mem_cons.mpr ⟨.inl hfree, ?_⟩),
      (h.live old).mp (hring.isSome (by simp)),
      h.not_used_put (available_of_mem hlist (by simp)) (by grind)⟩
    exact fun x hx => available_of_mem hlist hx
  | @listReplaceHead _ _ _ l hlive hfree hlist =>
    have hring := h.ring old l hlist
    have hfresh : new ∉ old :: l := fun hmem => hfree ⟨old, l, hlist, hmem⟩
    obtain ⟨m', hm', hring', hwithin⟩ := hring.replaceHead ((h.live new).mpr hlive) hfresh
    have hdrop := h.drop old
    have hfree' : ¬ (s.drop old).Used new := fun ⟨head', hholds⟩ =>
      hfree ⟨head', (holds_drop.mp hholds).2⟩
    have hout : ∀ x ∈ old :: l, ¬ (s.drop old).Used x := fun x hx =>
      h.not_used_drop (available_of_mem hlist hx)
    refine ⟨m', hm', hdrop.put hring' hwithin (by grind) ?_,
      (h.live old).mp (hring.isSome (by simp)),
      hdrop.not_used_put (.inl (hout old (by simp))) ?_⟩
    · exact List.forall_mem_cons.mpr ⟨.inl hfree', fun x hx => .inl (hout x hx)⟩
    · have hnodup := hring.nodup
      grind

theorem splice {list : α} {k : List α} (h : Represents m s) (hne : list ≠ head)
    (hentries : s.entries list = some k) (honto : s.entries head = some l) (hk : k ≠ []) :
    ∃ m', internalListSplice m (some list) (some head) = returns m' ∧
      Represents m' ((s.drop list).put head (k ++ l)) := by
  have hout : ∀ x ∈ list :: k, ¬ (s.drop list).Used x := fun x hx =>
    h.not_used_drop (available_of_mem hentries hx)
  have honto' : (s.drop list).entries head = some l := by
    rw [entries_drop, if_neg (Ne.symm hne), honto]
  obtain ⟨m', hm', hring, hwithin⟩ := (h.ring head l honto).splice (h.ring list k hentries)
    (fun x hx hmem => hout x (List.mem_cons_of_mem _ hx) ⟨head, l, honto', hmem⟩) hk
  refine ⟨m', hm', (h.drop list).put hring hwithin (List.Subset.refl _) fun x hx => ?_⟩
  by_cases hmem : x ∈ k
  · exact .inl (hout x (List.mem_cons_of_mem _ hmem))
  · exact available_of_mem honto' (by grind)

/-- The head of an empty list, spliced, is left as it is. -/
theorem splice_nil {list : α} (h : Represents m s) (hne : list ≠ head)
    (honto : s.entries head = some l) : Represents m ((s.drop list).put head l) := by
  have honto' : (s.drop list).entries head = some l := by
    rw [entries_drop, if_neg (Ne.symm hne), honto]
  exact (h.drop list).put (h.ring head l honto) (.refl _ m) (List.Subset.refl _)
    fun x hx => available_of_mem honto' hx

end Represents

/-! Whole runs -/

theorem step_represents {op : Op α} (h : Represents m s) (hstep : Step s op s') :
    ∃ m', perform m op = returns m' ∧ Represents m' s' := by
  cases hstep with
  | initListHead hlive hfree => exact h.init hlive hfree
  | listAdd hlive hfree hlist => exact h.add hlive hfree hlist
  | listAddTail hlive hfree hlist => exact h.addTail hlive hfree hlist
  | listDel hlist =>
    obtain ⟨m', hm', hring, hwithin⟩ := (h.ring _ _ hlist).del
    exact ⟨m', hm', h.put hring hwithin (by grind) fun x hx => available_of_mem hlist hx⟩
  | listReplace hlive hfree hlist =>
    obtain ⟨m', hm', hrepresents, -⟩ := h.replace (.listReplace hlive hfree hlist)
    exact ⟨m', hm', hrepresents⟩
  | listReplaceHead hlive hfree hlist =>
    obtain ⟨m', hm', hrepresents, -⟩ := h.replace (.listReplaceHead hlive hfree hlist)
    exact ⟨m', hm', hrepresents⟩
  | listReplaceInit hreplace =>
    obtain ⟨m₁, hm₁, hrepresents, hlive, hfree⟩ := h.replace hreplace
    obtain ⟨m', hm', hrepresents'⟩ := hrepresents.init hlive (.inl hfree)
    exact ⟨m', by simp only [perform, listReplaceInit, hm₁, returns_bind, hm'], hrepresents'⟩
  | listDelInit hdel =>
    cases hdel with
    | listDel hlist =>
      obtain ⟨p, n, m₁, hp, hn, hm₁, hrepresents⟩ := h.remove hlist
      have hlive := (h.live _).mp ((h.ring _ _ hlist).isSome
        (List.mem_cons_of_mem _ (List.mem_append_right _ List.mem_cons_self)))
      obtain ⟨m', hm', hrepresents'⟩ :=
        hrepresents.init hlive (.inl (h.not_used_remove hlist))
      exact ⟨m', by simp only [perform, listDelInit, hp, hn, returns_bind, hm₁, hm'],
        hrepresents'⟩
  | listMove hdel hadd =>
    cases hdel with
    | listDel hlist =>
      cases hadd with
      | listAdd hlive hfree hlist' =>
        obtain ⟨p, n, m₁, hp, hn, hm₁, hrepresents⟩ := h.remove hlist
        obtain ⟨m', hm', hrepresents'⟩ := hrepresents.add hlive hfree hlist'
        exact ⟨m', by simp only [perform, listMove, hp, hn, returns_bind, hm₁, hm'], hrepresents'⟩
  | listMoveTail hdel hadd =>
    cases hdel with
    | listDel hlist =>
      cases hadd with
      | listAddTail hlive hfree hlist' =>
        obtain ⟨p, n, m₁, hp, hn, hm₁, hrepresents⟩ := h.remove hlist
        obtain ⟨m', hm', hrepresents'⟩ := hrepresents.addTail hlive hfree hlist'
        exact ⟨m', by simp only [perform, listMoveTail, hp, hn, returns_bind, hm₁, hm'],
          hrepresents'⟩
  | @listSplice _ _ _ k _ hne hentries honto =>
    have hempty := (h.ring _ _ hentries).empty
    by_cases hk : k = []
    · subst hk
      exact ⟨m, by simp [perform, listSplice, hempty], h.splice_nil hne honto⟩
    · obtain ⟨m', hm', hrepresents⟩ := h.splice hne hentries honto hk
      exact ⟨m', by simp [perform, listSplice, hempty, hk, hm'], hrepresents⟩
  | @listSpliceInit _ _ list head hsplice =>
    cases hsplice with
    | @listSplice _ _ _ k l hne hentries honto =>
      have hempty := (h.ring _ _ hentries).empty
      have hfree : ¬ ((s.drop list).put head (k ++ l)).Used list := by
        have hdrop := h.drop list
        refine hdrop.not_used_put (.inl (h.not_used_drop (available_of_mem hentries (by simp)))) ?_
        have hself : s.Holds list list := ⟨k, hentries, List.mem_cons_self⟩
        have hnodup := (h.ring _ _ hentries).nodup
        have hother : list ∉ head :: l := fun hmem => hne (h.apart _ _ _ hself ⟨l, honto, hmem⟩)
        grind
      by_cases hk : k = []
      · subst hk
        refine ⟨m, by simp [perform, listSpliceInit, hempty], ?_⟩
        exact (h.splice_nil hne honto).put (h.ring _ _ hentries) (.refl _ m) (List.Subset.refl _)
          (by simpa using .inl hfree)
      · obtain ⟨m₁, hm₁, hrepresents⟩ := h.splice hne hentries honto hk
        have hlive := (h.live list).mp ((h.ring _ _ hentries).isSome List.mem_cons_self)
        obtain ⟨m', hm', hrepresents'⟩ := hrepresents.init hlive (.inl hfree)
        exact ⟨m', by simp [perform, listSpliceInit, hempty, hk, hm₁, hm'], hrepresents'⟩
  | @malloc _ node hfresh =>
    refine ⟨_, rfl, fun x => ?_, fun head l hl => ?_, h.apart⟩
    · by_cases hx : x = node
      · simp [hx]
      · simp [hx, h.live x]
    · refine (h.ring head l hl).congr fun x hx => Function.update_of_ne (fun heq => hfresh ?_) ..
      exact (h.live node).mp (heq ▸ (h.ring head l hl).isSome hx)
  | @free _ node hlive hfree =>
    refine ⟨_, by rw [perform, if_pos ((h.live node).mpr hlive)], fun x => ?_, fun head l hl => ?_,
      h.apart⟩
    · by_cases hx : x = node
      · simp [hx]
      · simp [hx, h.live x]
    · exact (h.ring head l hl).congr fun x hx =>
        Function.update_of_ne (fun hnode : x = node => hfree ⟨head, l, hl, hnode ▸ hx⟩) ..

omit [DecidableEq α] in
theorem represents_empty : Represents (fun _ => none) (Contents.empty : Contents α) := by
  refine ⟨fun x => by simp [Contents.empty], fun head l hl => ?_, fun head head' x hx => ?_⟩
  · exact absurd hl (Option.some_ne_none l).symm
  · obtain ⟨l, hl, -⟩ := hx
    exact absurd hl (Option.some_ne_none l).symm

theorem run_represents {ops : List (Op α)} (h : Represents m s) (hsteps : Steps s ops s') :
    ∃ m', ops.foldlM perform m = returns m' ∧ Represents m' s' := by
  induction hsteps generalizing m with
  | nil => exact ⟨m, rfl, h⟩
  | cons hstep _ ih =>
    obtain ⟨m₁, hm₁, h₁⟩ := step_represents h hstep
    obtain ⟨m', hm', h'⟩ := ih h₁
    exact ⟨m', by rw [List.foldlM_cons, hm₁, returns_bind, hm'], h'⟩

/-- A program that keeps to these rules never leaves its memory, and its lists are the
sequences that its calls make. -/
theorem lists_of_run {ops : List (Op α)} (h : Steps Contents.empty ops s) :
    ∃ m, ops.foldlM perform (fun _ => none) = returns m ∧ Represents m s :=
  run_represents represents_empty h

theorem lists_of_run_two : ∃ m s, [Op.malloc 0, .initListHead 0, .malloc 1, .listAddTail 1 0,
      .malloc 2, .listAdd 2 0].foldlM perform (fun _ => none) = returns m ∧ Represents m s ∧
    s.entries 0 = some [2, 1] := by
  have hone : Steps Contents.empty [Op.malloc 0, .initListHead 0, .malloc 1, .listAddTail 1 0,
      .malloc 2, .listAdd 2 0] _ :=
    .cons (.malloc (by simp [Contents.empty])) <|
    .cons (.initListHead (by simp) (.inl (by simp [Contents.Used, Contents.Holds, Contents.empty]))) <|
    .cons (.malloc (by simp [Contents.empty, Contents.put])) <|
    .cons (.listAddTail (l := []) (by simp) (by
      simp [Contents.Used, Contents.Holds, Contents.put, Contents.empty, Function.update_apply]) rfl) <|
    .cons (.malloc (by simp [Contents.empty, Contents.put])) <|
    .cons (.listAdd (l := [1]) (by simp) (by
      simp [Contents.Used, Contents.Holds, Contents.put, Contents.empty, Function.update_apply]) rfl)
    .nil
  obtain ⟨m, hm, hrepresents⟩ := lists_of_run hone
  exact ⟨m, _, hm, hrepresents, rfl⟩

end ChaosVpn.ListRuns
