import ChaosVpn.Library.LinkedNodes

/-! list.h: lists whose links are members of the structures they hold. A list is a head
and its entries in a ring. -/

namespace ChaosVpn.Lists
open Blocks Behaviour LinkedNodes

variable {α : Type} [DecidableEq α]

def initListHead (m : Memory α) (list : Option α) : Behaviour (Memory α) := do
  let m ← setNext m list list
  setPrev m list list

def internalListAdd (m : Memory α) (new before after : Option α) : Behaviour (Memory α) := do
  let m ← setPrev m after new
  let m ← setNext m new after
  let m ← setPrev m new before
  setNext m before new

def listAdd (m : Memory α) (new head : Option α) : Behaviour (Memory α) := do
  internalListAdd m new head (← next m head)

def listAddTail (m : Memory α) (new head : Option α) : Behaviour (Memory α) := do
  internalListAdd m new (← prev m head) head

def internalListDel (m : Memory α) (before after : Option α) : Behaviour (Memory α) := do
  let m ← setPrev m after before
  setNext m before after

def listDel (m : Memory α) (entry : Option α) : Behaviour (Memory α) := do
  let m ← internalListDel m (← prev m entry) (← next m entry)
  let m ← setNext m entry none
  setPrev m entry none

def listReplace (m : Memory α) (old new : Option α) : Behaviour (Memory α) := do
  let m ← setNext m new (← next m old)
  let m ← setPrev m (← next m new) new
  let m ← setPrev m new (← prev m old)
  setNext m (← prev m new) new

def listReplaceInit (m : Memory α) (old new : Option α) : Behaviour (Memory α) := do
  let m ← listReplace m old new
  initListHead m old

def listDelInit (m : Memory α) (entry : Option α) : Behaviour (Memory α) := do
  let m ← internalListDel m (← prev m entry) (← next m entry)
  initListHead m entry

def listMove (m : Memory α) (list head : Option α) : Behaviour (Memory α) := do
  let m ← internalListDel m (← prev m list) (← next m list)
  listAdd m list head

def listMoveTail (m : Memory α) (list head : Option α) : Behaviour (Memory α) := do
  let m ← internalListDel m (← prev m list) (← next m list)
  listAddTail m list head

def listIsLast (m : Memory α) (list head : Option α) : Behaviour Bool := do
  return (← next m list) = head

def listEmpty (m : Memory α) (head : Option α) : Behaviour Bool := do
  return (← next m head) = head

def internalListSplice (m : Memory α) (list head : Option α) : Behaviour (Memory α) := do
  let first ← next m list
  let last ← prev m list
  let place ← next m head
  let m ← setPrev m first head
  let m ← setNext m head first
  let m ← setNext m last place
  setPrev m place last

def listSplice (m : Memory α) (list head : Option α) : Behaviour (Memory α) := do
  if ← listEmpty m list then return m else internalListSplice m list head

def listSpliceInit (m : Memory α) (list head : Option α) : Behaviour (Memory α) := do
  if ← listEmpty m list then return m
  else initListHead (← internalListSplice m list head) list

/-! What the functions do to a ring -/

section Touched

variable {α : Type} {m m' m'' : Memory α} {touched : List α}

/-- Nothing but some nodes is written, and none comes or goes. -/
structure Within (touched : List α) (m m' : Memory α) : Prop where
  others : ∀ x, x ∉ touched → m' x = m x
  live : ∀ x, (m' x).isSome = (m x).isSome

theorem Within.refl (touched : List α) (m : Memory α) : Within touched m m :=
  ⟨fun _ _ => rfl, fun _ => rfl⟩

theorem Within.trans (h : Within touched m m') (h' : Within touched m' m'') :
    Within touched m m'' :=
  ⟨fun x hx => (h'.others x hx).trans (h.others x hx), fun x => (h'.live x).trans (h.live x)⟩

theorem Within.mono {touched' : List α} (h : Within touched m m') (hsub : touched ⊆ touched') :
    Within touched' m m' :=
  ⟨fun x hx => h.others x fun hmem => hx (hsub hmem), h.live⟩

end Touched

variable {m m' : Memory α} {head new entry a b p n : α} {l xs ys touched : List α}

theorem within_join (m : Memory α) (ha : a ∈ touched) (hb : b ∈ touched) :
    Within touched m (join m a b) :=
  ⟨fun _ hx => join_of_ne (fun h => hx (h ▸ ha)) (fun h => hx (h ▸ hb)), fun _ => join_isSome _⟩

theorem initListHead_eq (h : (m a).isSome) : initListHead m (some a) = returns (join m a a) :=
  setNext_setPrev h h

theorem internalListAdd_eq (hnew : (m new).isSome) (hp : (m p).isSome) (hn : (m n).isSome) :
    internalListAdd m (some new) (some p) (some n) = returns (join (join m new n) p new) := by
  have hfirst := setPrev_setNext hnew hn
  have hsecond := setPrev_setNext (m := join m new n) (a := p) (b := new) (by simpa) (by simpa)
  obtain ⟨m₁, hm₁, hm₂⟩ := bind_eq_returns.mp hfirst
  simp only [internalListAdd, hm₁, returns_bind, hm₂, hsecond]

theorem internalListDel_eq (hp : (m p).isSome) (hn : (m n).isSome) :
    internalListDel m (some p) (some n) = returns (join m p n) := setPrev_setNext hp hn

/-- A node is put between the end of one walk and the start of another. -/
theorem insert_between (hfront : Walk m (xs ++ [p])) (hback : Walk m (n :: ys))
    (hnew : (m new).isSome) (hp : (m p).isSome) (hn : (m n).isSome)
    (hsimple : Simple (xs ++ [p] ++ new :: n :: ys)) :
    Walk (join (join m new n) p new) (xs ++ [p] ++ new :: n :: ys) := by
  have hsimple' : Simple (xs ++ [p] ++ n :: ys) :=
    hsimple.of_sublist ((List.sublist_cons_self new (n :: ys)).append_left _)
  have hlast : Simple ((xs ++ [p]) ++ [new] ++ n :: ys) := by simpa using hsimple
  have hfresh : new ∉ xs ++ [p] := hlast.last_notMem.1
  -- the back is joined to the node, then the front to both
  have hback' : Walk (join m new n) (new :: n :: ys) :=
    Walk.cons hback (hsimple.of_sublist (List.sublist_append_right _ _)) hnew hn
  have hfront' : Walk (join m new n) (xs ++ [p]) :=
    Walk.join hfront (fun hmem => hfresh (List.dropLast_subset _ hmem)) hsimple'.first_notMem.1
  exact Walk.append hfront' hback' hsimple (by simpa) (by simpa)

theorem within_insert (m : Memory α) (new p n : α) :
    Within [p, new, n] m (join (join m new n) p new) :=
  (within_join m (by simp) (by simp)).trans (within_join _ (by simp) (by simp))

/-- What stands between two nodes is taken out. -/
theorem remove_between {mid : List α} (hwalk : Walk m (xs ++ [p] ++ mid ++ n :: ys))
    (hsimple : Simple (xs ++ [p] ++ n :: ys)) :
    ∃ m', internalListDel m (some p) (some n) = returns m' ∧
      Walk m' (xs ++ [p] ++ n :: ys) ∧ Within [p, n] m m' := by
  obtain ⟨x, y, rest, hrest⟩ : ∃ x y rest, xs ++ [p] ++ mid ++ n :: ys = x :: y :: rest := by
    rcases xs with _ | ⟨x, xs⟩
    · rcases mid with _ | ⟨y, mid⟩ <;> exact ⟨_, _, _, rfl⟩
    · rcases xs with _ | ⟨y, xs⟩ <;> exact ⟨_, _, _, rfl⟩
  have hlive := Walk.isSome (hrest ▸ hwalk)
  have hp : (m p).isSome := hlive p (hrest ▸ by simp)
  have hn : (m n).isSome := hlive n (hrest ▸ by simp)
  refine ⟨_, internalListDel_eq hp hn, ?_, within_join m (by simp) (by simp)⟩
  exact Walk.append hwalk.left_of_append.left_of_append hwalk.right_of_append hsimple hp hn

omit [DecidableEq α] in
theorem linked_in_walk (h : Walk m (xs ++ [p] ++ n :: ys)) : Linked m p n :=
  (List.isChain_append_cons_cons.mp (by simpa using h)).2.1

theorem poison (h : (m a).isSome) :
    ∃ m', (setNext m (some a) none >>= fun m => setPrev m (some a) none) = returns m' ∧
      Within [a] m m' := by
  obtain ⟨node, hnode⟩ := Option.isSome_iff_exists.mp h
  refine ⟨Function.update m a (some ⟨none, none⟩), ?_, fun x hx => ?_, fun x => ?_⟩
  · rw [setNext, modify_eq _ hnode, returns_bind, setPrev, modify_eq _ (Function.update_self ..),
      Function.update_idem]
  · exact Function.update_of_ne (by simpa using hx) ..
  · by_cases hx : x = a <;> simp [hx, hnode]

/-- A head and its entries, one after the other and back to the head. -/
structure Ring (m : Memory α) (head : α) (l : List α) : Prop where
  walk : Walk m (head :: l ++ [head])
  nodup : (head :: l).Nodup

omit [DecidableEq α] in
theorem exists_last (head : α) (l : List α) : ∃ xs p, head :: l = xs ++ [p] :=
  ⟨_, _, (List.dropLast_append_getLast (List.cons_ne_nil head l)).symm⟩

omit [DecidableEq α] in
theorem exists_first (head : α) (l : List α) : ∃ n ys, l ++ [head] = n :: ys :=
  List.exists_cons_of_ne_nil (by simp)

namespace Ring

variable {l₁ l₂ : List α}

omit [DecidableEq α] in
theorem congr (h : Ring m head l) (hagree : ∀ x ∈ head :: l, m' x = m x) : Ring m' head l := by
  refine ⟨Walk.congr h.walk fun x hx => hagree x ?_, h.nodup⟩
  rcases List.mem_append.mp hx with hx | hx
  · exact hx
  · exact List.mem_singleton.mp hx ▸ List.mem_cons_self

omit [DecidableEq α] in
theorem isSome (h : Ring m head l) {x : α} (hx : x ∈ head :: l) : (m x).isSome := by
  cases l with
  | nil => exact Walk.isSome h.walk x (List.mem_append_left _ hx)
  | cons y l => exact Walk.isSome h.walk x (List.mem_append_left _ hx)

theorem init (h : (m a).isSome) :
    ∃ m', initListHead m (some a) = returns m' ∧ Ring m' a [] ∧ Within [a] m m' := by
  refine ⟨_, initListHead_eq h, ⟨?_, by simp⟩, within_join m (by simp) (by simp)⟩
  exact List.isChain_pair.mpr (linked_join h h)

/-- A new entry between two neighbours of a ring. -/
theorem insert (h : Ring m head (l₁ ++ l₂)) (hnew : (m new).isSome)
    (hfresh : new ∉ head :: (l₁ ++ l₂)) (hp : head :: l₁ = xs ++ [p])
    (hn : l₂ ++ [head] = n :: ys) :
    ∃ m', internalListAdd m (some new) (some p) (some n) = returns m' ∧
      Ring m' head (l₁ ++ new :: l₂) ∧ Within (new :: head :: (l₁ ++ l₂)) m m' := by
  have hnodup : (head :: (l₁ ++ new :: l₂)).Nodup := by
    have hperm : (head :: (l₁ ++ new :: l₂)).Perm (new :: head :: (l₁ ++ l₂)) :=
      (List.perm_middle.cons head).trans (.swap new head _)
    exact hperm.nodup_iff.mpr (List.nodup_cons.mpr ⟨hfresh, h.nodup⟩)
  have hring : head :: (l₁ ++ new :: l₂) ++ [head] = xs ++ [p] ++ new :: n :: ys := by
    rw [← hn, ← hp]
    simp
  have hwalk : Walk m (xs ++ [p] ++ n :: ys) := by
    rw [← hn, ← hp]
    simpa using h.walk
  have hpmem : p ∈ head :: l₁ := hp ▸ by simp
  have hnmem : n ∈ l₂ ++ [head] := hn ▸ by simp
  have hplive : (m p).isSome := h.isSome (by grind)
  have hnlive : (m n).isSome := h.isSome (by grind)
  have hwalk' := insert_between hwalk.left_of_append hwalk.right_of_append hnew hplive hnlive
    (hring ▸ simple_ring hnodup)
  refine ⟨_, internalListAdd_eq hnew hplive hnlive, ⟨hring ▸ hwalk', hnodup⟩,
    (within_insert m new p n).mono fun x hx => ?_⟩
  grind

theorem add (h : Ring m head l) (hnew : (m new).isSome) (hfresh : new ∉ head :: l) :
    ∃ m', listAdd m (some new) (some head) = returns m' ∧ Ring m' head (new :: l) ∧
      Within (new :: head :: l) m m' := by
  obtain ⟨n, ys, hn⟩ := exists_first head l
  have hwalk : Walk m ([] ++ [head] ++ n :: ys) := by simpa [← hn] using h.walk
  rw [listAdd, next_of_linked (linked_in_walk hwalk), returns_bind]
  exact insert h hnew hfresh (List.nil_append [head]).symm hn

theorem addTail (h : Ring m head l) (hnew : (m new).isSome) (hfresh : new ∉ head :: l) :
    ∃ m', listAddTail m (some new) (some head) = returns m' ∧ Ring m' head (l ++ [new]) ∧
      Within (new :: head :: l) m m' := by
  obtain ⟨xs, p, hp⟩ := exists_last head l
  have hwalk : Walk m (xs ++ [p] ++ head :: []) := by simpa [← hp] using h.walk
  have h' : Ring m head (l ++ []) := by simpa using h
  rw [listAddTail, prev_of_linked (linked_in_walk hwalk), returns_bind]
  simpa using h'.insert hnew (by simpa using hfresh) hp (List.nil_append [head])

/-- An entry is taken out, as all the functions that do so start. -/
theorem remove (h : Ring m head (l₁ ++ entry :: l₂)) :
    ∃ p n m', prev m (some entry) = returns (some p) ∧ next m (some entry) = returns (some n) ∧
      internalListDel m (some p) (some n) = returns m' ∧ Ring m' head (l₁ ++ l₂) ∧
      Within (head :: (l₁ ++ l₂)) m m' := by
  obtain ⟨xs, p, hp⟩ := exists_last head l₁
  obtain ⟨n, ys, hn⟩ := exists_first head l₂
  have hring : head :: (l₁ ++ entry :: l₂) ++ [head] = xs ++ [p] ++ [entry] ++ n :: ys := by
    rw [← hn, ← hp]
    simp
  have hring' : head :: (l₁ ++ l₂) ++ [head] = xs ++ [p] ++ n :: ys := by
    rw [← hn, ← hp]
    simp
  have hwalk : Walk m (xs ++ [p] ++ [entry] ++ n :: ys) := hring ▸ h.walk
  have hnodup : (head :: (l₁ ++ l₂)).Nodup :=
    h.nodup.sublist (((List.sublist_cons_self entry l₂).append_left l₁).cons_cons head)
  obtain ⟨m', hm', hwalk', hwithin⟩ := remove_between hwalk (hring' ▸ simple_ring hnodup)
  have hbefore : Walk m (xs ++ [p] ++ entry :: n :: ys) := by simpa using hwalk
  refine ⟨p, n, m', prev_of_linked (linked_in_walk hbefore), next_of_linked (linked_in_walk hwalk),
    hm', ⟨hring' ▸ hwalk', hnodup⟩, hwithin.mono fun x hx => ?_⟩
  have hpmem : p ∈ head :: l₁ := hp ▸ by simp
  have hnmem : n ∈ l₂ ++ [head] := hn ▸ by simp
  grind

theorem del (h : Ring m head (l₁ ++ entry :: l₂)) :
    ∃ m', listDel m (some entry) = returns m' ∧ Ring m' head (l₁ ++ l₂) ∧
      Within (head :: (l₁ ++ entry :: l₂)) m m' := by
  obtain ⟨p, n, m₁, hp, hn, hm₁, hring, hwithin⟩ := h.remove
  have hlive : (m₁ entry).isSome := by
    rw [hwithin.live]
    exact h.isSome (by simp)
  obtain ⟨m₂, hm₂, hwithin₂⟩ := poison hlive
  have hout : entry ∉ head :: (l₁ ++ l₂) :=
    (List.nodup_cons.mp ((List.perm_middle.cons head).trans (.swap entry head _) |>.nodup_iff.mp
      h.nodup)).1
  refine ⟨m₂, ?_, hring.congr fun x hx => hwithin₂.others x ?_, ?_⟩
  · simp only [listDel, hp, hn, returns_bind, hm₁]
    exact hm₂
  · exact fun hmem => hout (List.mem_singleton.mp hmem ▸ hx)
  · exact (hwithin.mono (by grind)).trans (hwithin₂.mono (by grind))

theorem listReplace_eq {old : α} (hnext : next m (some old) = returns (some n))
    (hnew : (m new).isSome) (hn : (m n).isSome)
    (hprev : prev (join m new n) (some old) = returns (some p)) (hp : (m p).isSome) :
    listReplace m (some old) (some new) = returns (join (join m new n) p new) := by
  have hfirst := setNext_setPrev hnew hn
  have hsecond := setPrev_setNext (m := join m new n) (a := p) (b := new) (by simpa) (by simpa)
  obtain ⟨m₁, hm₁, hm₂⟩ := bind_eq_returns.mp hfirst
  obtain ⟨m₃, hm₃, hm₄⟩ := bind_eq_returns.mp hsecond
  have hnext₁ : next m₁ (some new) = returns (some n) := next_of_setNext hm₁
  have hprev₃ : prev m₃ (some new) = returns (some p) := prev_of_setPrev hm₃
  simp only [listReplace, hnext, returns_bind, hm₁, hnext₁, hm₂, hprev, hm₃, hprev₃, hm₄]

theorem replaceEntry {old : α} (h : Ring m head (l₁ ++ old :: l₂)) (hnew : (m new).isSome)
    (hfresh : new ∉ head :: (l₁ ++ old :: l₂)) :
    ∃ m', listReplace m (some old) (some new) = returns m' ∧ Ring m' head (l₁ ++ new :: l₂) ∧
      Within (new :: head :: (l₁ ++ old :: l₂)) m m' := by
  obtain ⟨xs, p, hp⟩ := exists_last head l₁
  obtain ⟨n, ys, hn⟩ := exists_first head l₂
  have hwalk : Walk m (xs ++ [p] ++ [old] ++ n :: ys) := by
    rw [← hn, ← hp]
    simpa using h.walk
  have hring : head :: (l₁ ++ new :: l₂) ++ [head] = xs ++ [p] ++ new :: n :: ys := by
    rw [← hn, ← hp]
    simp
  have hpmem : p ∈ head :: l₁ := hp ▸ by simp
  have hnmem : n ∈ l₂ ++ [head] := hn ▸ by simp
  have hold := h.nodup
  have hne : old ≠ n := by grind
  have hnodup : (head :: (l₁ ++ new :: l₂)).Nodup := by grind
  have hplive : (m p).isSome := h.isSome (by grind)
  have hnlive : (m n).isSome := h.isSome (by grind)
  have hprev : prev (join m new n) (some old) = returns (some p) := by
    have hbefore : Walk m (xs ++ [p] ++ old :: n :: ys) := by simpa using hwalk
    exact prev_of_linked ((linked_in_walk hbefore).join (by grind) hne)
  refine ⟨_, listReplace_eq (next_of_linked (linked_in_walk hwalk)) hnew hnlive hprev hplive,
    ⟨hring ▸ insert_between hwalk.left_of_append.left_of_append hwalk.right_of_append hnew hplive
      hnlive (hring ▸ simple_ring hnodup), hnodup⟩,
    (within_insert m new p n).mono fun x hx => ?_⟩
  grind

theorem replaceHead {old : α} (h : Ring m old l) (hnew : (m new).isSome) (hfresh : new ∉ old :: l) :
    ∃ m', listReplace m (some old) (some new) = returns m' ∧ Ring m' new l ∧
      Within (new :: old :: l) m m' := by
  have hnodup : (new :: l).Nodup :=
    List.nodup_cons.mpr ⟨fun hmem => hfresh (List.mem_cons_of_mem _ hmem),
      (List.nodup_cons.mp h.nodup).2⟩
  rcases l with _ | ⟨n, ys⟩
  · -- the head of an empty list is its own neighbour
    have hlive : (m old).isSome := h.isSome (by simp)
    have hself : Linked m old old := List.isChain_pair.mp h.walk
    have hprev : prev (join m new old) (some old) = returns (some new) :=
      prev_of_linked (linked_join hnew hlive)
    refine ⟨_, listReplace_eq (next_of_linked hself) hnew hlive hprev hnew, ⟨?_, hnodup⟩, ?_⟩
    · exact List.isChain_pair.mpr (linked_join (by simpa) (by simpa))
    · exact (within_join m (by simp) (by simp)).trans (within_join _ (by simp) (by simp))
  · obtain ⟨xs, p, hp⟩ := exists_last n ys
    have hold := h.nodup
    have hpmem : p ∈ n :: ys := hp ▸ by simp
    have hplive : (m p).isSome := h.isSome (by grind)
    have hnlive : (m n).isSome := h.isSome (by grind)
    have hnext : Walk m ([] ++ [old] ++ n :: (ys ++ [old])) := h.walk
    have hlast : Walk m (old :: xs ++ [p] ++ old :: []) := by simpa [hp] using h.walk
    have hprev : prev (join m new n) (some old) = returns (some p) :=
      prev_of_linked ((linked_in_walk hlast).join (by grind) (by grind))
    refine ⟨_, listReplace_eq (next_of_linked (linked_in_walk hnext)) hnew hnlive hprev hplive,
      ⟨?_, hnodup⟩, (within_insert m new p n).mono fun x hx => by grind⟩
    have hentries : Walk m (n :: ys) := hnext.right_of_append.left_of_append
    have hring := simple_ring hnodup
    have hfront : Walk (join m new n) (new :: n :: ys) :=
      Walk.cons hentries (hring.of_sublist (List.sublist_append_left _ _)) hnew hnlive
    have hends : new :: n :: ys ++ [new] = new :: xs ++ [p] ++ new :: [] := by simp [hp]
    rw [hp] at hfront
    rw [hends] at hring ⊢
    exact Walk.append hfront (.singleton new) hring (by simpa) (by simpa)

theorem splice {list : α} {k : List α} (h : Ring m head l) (hlist : Ring m list k)
    (hapart : ∀ x ∈ k, x ∉ head :: l) (hk : k ≠ []) :
    ∃ m', internalListSplice m (some list) (some head) = returns m' ∧ Ring m' head (k ++ l) ∧
      Within (head :: (k ++ l)) m m' := by
  obtain ⟨first, rest, rfl⟩ := List.exists_cons_of_ne_nil hk
  obtain ⟨xs, last, hlast⟩ := exists_last first rest
  obtain ⟨place, ys, hplace⟩ := exists_first head l
  have hfirstWalk : Walk m ([] ++ [list] ++ first :: (rest ++ [list])) := hlist.walk
  have hlastWalk : Walk m (list :: xs ++ [last] ++ list :: []) := by simpa [hlast] using hlist.walk
  have hplaceWalk : Walk m ([] ++ [head] ++ place :: ys) := by simpa [← hplace] using h.walk
  have hnodupHead := h.nodup
  have hnodupList := hlist.nodup
  have hlastMem : last ∈ first :: rest := hlast ▸ by simp
  have hplaceMem : place ∈ l ++ [head] := hplace ▸ by simp
  have hheadLive : (m head).isSome := h.isSome (by simp)
  have hfirstLive : (m first).isSome := hlist.isSome (by simp)
  have hlastLive : (m last).isSome := hlist.isSome (by grind)
  have hplaceLive : (m place).isSome := h.isSome (by grind)
  have hnodup : (head :: (first :: rest ++ l)).Nodup := by grind
  have hring := simple_ring hnodup
  -- the head is joined to the first entry of the other list, its last entry to the rest
  have hfront : Walk (join m head first) (head :: first :: rest) :=
    Walk.cons hfirstWalk.right_of_append.left_of_append
      (hring.of_sublist (List.sublist_append_of_sublist_left (List.sublist_append_left _ _)))
      hheadLive hfirstLive
  have hback : Walk (join m head first) (place :: ys) := by
    rw [← hplace] at hplaceWalk ⊢
    refine Walk.join hplaceWalk.right_of_append ?_ fun hmem => ?_
    · rw [List.dropLast_concat]
      exact (List.nodup_cons.mp h.nodup).1
    · have hmem' : first ∈ l ++ [head] := List.mem_of_mem_tail hmem
      grind
  have hends : head :: (first :: rest ++ l) ++ [head] = head :: xs ++ [last] ++ place :: ys := by
    simp [hlast, ← hplace]
  refine ⟨join (join m head first) last place, ?_, ⟨?_, hnodup⟩, ?_⟩
  · obtain ⟨m₁, hm₁, hm₂⟩ := bind_eq_returns.mp (setPrev_setNext hheadLive hfirstLive)
    have hsecond := setNext_setPrev (m := join m head first) (a := last) (b := place)
      (by simpa) (by simpa)
    simp only [internalListSplice, next_of_linked (linked_in_walk hfirstWalk),
      prev_of_linked (linked_in_walk hlastWalk), next_of_linked (linked_in_walk hplaceWalk),
      returns_bind, hm₁, hm₂, hsecond]
  · rw [hlast] at hfront
    rw [hends] at hring ⊢
    exact Walk.append hfront hback hring (by simpa) (by simpa)
  · have htouched : ∀ x ∈ [head, first, last, place], x ∈ head :: (first :: rest ++ l) := by grind
    exact (within_join m (htouched _ (by simp)) (htouched _ (by simp))).trans
      (within_join _ (htouched _ (by simp)) (htouched _ (by simp)))

theorem empty (h : Ring m head l) : listEmpty m (some head) = returns (decide (l = [])) := by
  obtain ⟨n, ys, hn⟩ := exists_first head l
  have hwalk : Walk m ([] ++ [head] ++ n :: ys) := by simpa [← hn] using h.walk
  have hnodup := h.nodup
  rw [listEmpty, next_of_linked (linked_in_walk hwalk), returns_bind, pure_eq_returns]
  cases l with
  | nil =>
    cases hn
    simp
  | cons x l =>
    cases hn
    have hne : n ≠ head := by grind
    simp [hne]

end Ring

end ChaosVpn.Lists
