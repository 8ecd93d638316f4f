import ChaosVpn.CStrings
import ChaosVpn.ListLoops
import ChaosVpn.Library.Ownership

/-! The memory that the parser works in: texts, the structures of the peers, and the links
between them. malloc() never fails and never gives an address twice, so that what was given
back stays unreadable. -/

namespace ChaosVpn.ParserHeap
open CStrings Blocks Behaviour LinkedNodes ChaosVpn.Lists ListRuns Ownership

/-- The texts that a struct peer_config points to. -/
inductive Field
  | name
  | gatewayhost
  | owner
  | key
  | ed25519publickey
  | cipher
  | compression
  | digest
  deriving DecidableEq

inductive Subnets
  | network
  | network6
  | routeNetwork
  | routeNetwork6
  deriving DecidableEq

/-- The members of type struct list_head. -/
inductive Member
  | list
  | subnets (s : Subnets)
  | peerConfig
  | doneUnknownWarnings
  deriving DecidableEq

/-- A list_head by the block that it is in; the static ones are at 0. -/
abbrev Link := Nat × Member

def configlist : Link := (0, .peerConfig)
def doneUnknownWarnings : Link := (0, .doneUnknownWarnings)

/-- What a struct peer_config has besides texts and lists. -/
structure Plain where
  useTcpOnly : Bool
  hidden : Bool
  silent : Bool
  port : Nat
  indirectdata : Bool
  primary : Bool
  deriving DecidableEq

structure PeerStruct where
  texts : Field → Nat
  plain : Plain

inductive Block
  | text (size : Nat) (s : Bytes)
  | stringList (text : Nat)
  | peerConfigList (peerConfig : Nat)
  | peerConfig (p : PeerStruct)

def subnetLists : List Subnets := [.network, .network6, .routeNetwork, .routeNetwork6]

def Block.members : Block → List Member
  | .text .. => []
  | .stringList _ | .peerConfigList _ => [.list]
  | .peerConfig _ => subnetLists.map .subnets

abbrev Cell := Nat × Block

structure Heap where
  blocks : Nat → Option Block
  nodes : Memory Link
  fresh : Nat

def Heap.allocate (h : Heap) (b : Block) : Heap where
  blocks := Function.update h.blocks h.fresh (some b)
  nodes := fun x =>
    if x.1 = h.fresh then (if x.2 ∈ b.members then some ⟨none, none⟩ else none) else h.nodes x
  fresh := h.fresh + 1

/-- A block with what is put into it first. -/
def malloc (h : Heap) (b : Block) : Nat × Heap := (h.fresh, h.allocate b)

def free (h : Heap) (p : Nat) : Behaviour Heap :=
  if (h.blocks p).isSome then
    returns { h with
      blocks := Function.update h.blocks p none
      nodes := fun x => if x.1 = p then none else h.nodes x }
  else outside

def load (h : Heap) (p : Nat) : Behaviour Block :=
  match h.blocks p with
  | some b => returns b
  | none => outside

/-- A store into a block, which keeps its type. -/
def store (h : Heap) (p : Nat) (b : Block) : Behaviour Heap := do
  let _ ← load h p
  return { h with blocks := Function.update h.blocks p (some b) }

def onNodes (h : Heap) (f : Memory Link → Behaviour (Memory Link)) : Behaviour Heap := do
  return { h with nodes := ← f h.nodes }

/-! What the memory holds -/

def Heap.links (h : Heap) : Set Link :=
  {x | x = configlist ∨ x = doneUnknownWarnings ∨
    ∃ b, h.blocks x.1 = some b ∧ x.2 ∈ b.members}

/-- The blocks are the cells, and the lists have the entries. -/
structure Mem (h : Heap) (cells : Multiset Cell) (entries : Link → Option (List Link)) : Prop where
  owns : Owns h.blocks cells
  bounded : ∀ p b, (p, b) ∈ cells → 0 < p ∧ p < h.fresh
  positive : 0 < h.fresh
  lists : Represents h.nodes ⟨h.links, entries⟩

def Used (entries : Link → Option (List Link)) (x : Link) : Prop :=
  ∃ head l, entries head = some l ∧ x ∈ head :: l

variable {h : Heap} {cells : Multiset Cell} {entries : Link → Option (List Link)} {p : Nat}
  {b : Block} {x head : Link} {l : List Link}

theorem Mem.links_of_used (hm : Mem h cells entries) (hx : Used entries x) : x ∈ h.links := by
  obtain ⟨head, l, hl, hx⟩ := hx
  exact (hm.lists.live x).mp ((hm.lists.ring head l hl).isSome hx)

/-- Nodes in no list may come, go and change. -/
theorem represents_congr {α : Type} {m m' : Memory α} {s : Contents α} {nodes : Set α}
    (hr : Represents m s) (hagree : ∀ x, s.Used x → m' x = m x)
    (hlive : ∀ x, (m' x).isSome ↔ x ∈ nodes) : Represents m' ⟨nodes, s.entries⟩ :=
  ⟨hlive, fun head l hl => (hr.ring head l hl).congr fun x hx => hagree x ⟨head, l, hl, hx⟩,
    hr.apart⟩

theorem Mem.fresh_free (hm : Mem h cells entries) : h.blocks h.fresh = none := by
  by_contra hsome
  obtain ⟨b, hb⟩ := Option.ne_none_iff_exists'.mp hsome
  have hlt := (hm.bounded _ _ ((hm.owns.mem_iff _ _).mp hb)).2
  omega

theorem Mem.link_lt (hm : Mem h cells entries) (hx : x ∈ h.links) : x.1 < h.fresh := by
  rcases hx with rfl | rfl | ⟨b, hb, -⟩
  · exact hm.positive
  · exact hm.positive
  · exact (hm.bounded _ _ ((hm.owns.mem_iff _ _).mp hb)).2

theorem Mem.link_live (hm : Mem h ((p, b) ::ₘ cells) entries) {m : Member}
    (hmember : m ∈ b.members) : (p, m) ∈ h.links :=
  .inr (.inr ⟨b, hm.owns.load, hmember⟩)

/-- A new block, with none of its nodes in a list. -/
theorem Mem.allocate (hm : Mem h cells entries) (b : Block) :
    Mem (h.allocate b) ((h.fresh, b) ::ₘ cells) entries ∧ ∀ m, ¬ Used entries (h.fresh, m) := by
  have hfresh := hm.fresh_free
  refine ⟨⟨hm.owns.insert hfresh b, fun p b' hmem => ?_, Nat.succ_pos _, ?_⟩, fun m hused => ?_⟩
  · rcases Multiset.mem_cons.mp hmem with heq | hmem
    · obtain ⟨rfl, rfl⟩ := Prod.mk.inj heq
      exact ⟨hm.positive, Nat.lt_succ_self _⟩
    · have hlt := hm.bounded p b' hmem
      exact ⟨hlt.1, Nat.lt_succ_of_lt hlt.2⟩
  · refine represents_congr hm.lists (fun x hx => ?_) fun x => ?_
    · have hlt := hm.link_lt (hm.links_of_used hx)
      simp [Heap.allocate, Nat.ne_of_lt hlt]
    · by_cases hx : x.1 = h.fresh
      · have hzero := hm.positive
        have hstatic : x ≠ configlist ∧ x ≠ doneUnknownWarnings := by
          constructor <;> rintro rfl <;> simp [configlist, doneUnknownWarnings] at hx <;> omega
        by_cases hmem : x.2 ∈ b.members <;>
          simp [Heap.allocate, Heap.links, hx, hmem, hstatic]
      · simp [Heap.allocate, Heap.links, hx, hm.lists.live x]
  · exact Nat.lt_irrefl _ (hm.link_lt (hm.links_of_used hused))

theorem Mem.load (hm : Mem h ((p, b) ::ₘ cells) entries) : ParserHeap.load h p = returns b := by
  simp [ParserHeap.load, hm.owns.load]

/-- A block none of whose nodes is in a list is given back. -/
theorem Mem.free (hm : Mem h ((p, b) ::ₘ cells) entries)
    (hunused : ∀ m ∈ b.members, ¬ Used entries (p, m)) :
    ∃ h', ParserHeap.free h p = returns h' ∧ Mem h' cells entries := by
  have hp : h.blocks p = some b := hm.owns.load
  refine ⟨_, if_pos (by simp [hp]), hm.owns.remove,
    fun p' b' hmem => hm.bounded p' b' (Multiset.mem_cons_of_mem hmem), hm.positive, ?_⟩
  have hpos := (hm.bounded p b (Multiset.mem_cons_self _ _)).1
  refine represents_congr hm.lists (fun x hx => ?_) fun x => ?_
  · have hne : x.1 ≠ p := by
      rintro rfl
      rcases hm.links_of_used hx with rfl | rfl | ⟨b', hb', hmem⟩
      · exact Nat.lt_irrefl _ hpos
      · exact Nat.lt_irrefl _ hpos
      · obtain rfl := Option.some.inj (hp.symm.trans hb')
        exact hunused x.2 hmem hx
    simp [hne]
  · by_cases hx : x.1 = p
    · have hstatic : x ≠ configlist ∧ x ≠ doneUnknownWarnings := by
        constructor <;> rintro rfl <;> simp [configlist, doneUnknownWarnings] at hx <;> omega
      simp [Heap.links, hx, hstatic]
    · simp [Heap.links, hx, hm.lists.live x]

theorem store_eq (hp : h.blocks p = some b) (b' : Block) : ParserHeap.store h p b' =
    returns { h with blocks := Function.update h.blocks p (some b') } := by
  simp [ParserHeap.store, ParserHeap.load, hp]

theorem Mem.store (hm : Mem h ((p, b) ::ₘ cells) entries) (b' : Block)
    (hmembers : b'.members = b.members) :
    ∃ h', ParserHeap.store h p b' = returns h' ∧ Mem h' ((p, b') ::ₘ cells) entries := by
  have hp : h.blocks p = some b := hm.owns.load
  refine ⟨_, store_eq hp b', hm.owns.store b', fun p' b'' hmem => ?_,
    hm.positive, ?_⟩
  · rcases Multiset.mem_cons.mp hmem with heq | hmem
    · obtain ⟨rfl, rfl⟩ := Prod.mk.inj heq
      exact hm.bounded p' b (Multiset.mem_cons_self _ _)
    · exact hm.bounded p' b'' (Multiset.mem_cons_of_mem hmem)
  · refine represents_congr hm.lists (fun x _ => rfl) fun x => ?_
    by_cases hx : x.1 = p
    · simp [Heap.links, hx, hm.lists.live x, hmembers, hp]
    · simp [Heap.links, hx, hm.lists.live x]

/-! Functions of list.h -/

theorem Mem.onNodes {m' : Memory Link} {entries' : Link → Option (List Link)}
    (hm : Mem h cells entries) (f : Memory Link → Behaviour (Memory Link))
    (hf : f h.nodes = returns m') (hlists : Represents m' ⟨h.links, entries'⟩) :
    ∃ h', ParserHeap.onNodes h f = returns h' ∧ Mem h' cells entries' :=
  ⟨{ h with nodes := m' }, by simp [ParserHeap.onNodes, hf], hm.owns, hm.bounded, hm.positive, hlists⟩

theorem Mem.initListHead (hm : Mem h cells entries) (hlive : head ∈ h.links)
    (hfree : ¬ Used entries head ∨ (entries head).isSome = true) :
    ∃ h', ParserHeap.onNodes h (Lists.initListHead · (some head)) = returns h' ∧
      Mem h' cells (Function.update entries head (some [])) := by
  have havailable : Available ⟨h.links, entries⟩ head head :=
    hfree.imp_right fun hsome => by
      obtain ⟨l, hl⟩ := Option.isSome_iff_exists.mp hsome
      exact ⟨l, hl, List.mem_cons_self⟩
  obtain ⟨m', hm', hlists⟩ := hm.lists.init hlive havailable
  exact hm.onNodes _ hm' hlists

theorem Mem.listAddTail (hm : Mem h cells entries) (hlive : x ∈ h.links)
    (hfree : ¬ Used entries x) (hlist : entries head = some l) :
    ∃ h', ParserHeap.onNodes h (Lists.listAddTail · (some x) (some head)) = returns h' ∧
      Mem h' cells (Function.update entries head (some (l ++ [x]))) := by
  obtain ⟨m', hm', hlists⟩ := hm.lists.addTail hlive hfree hlist
  exact hm.onNodes _ hm' hlists

/-- The first entry is taken out, and is in no list then. -/
theorem Mem.listDel (hm : Mem h cells entries) (hlist : entries head = some (x :: l)) :
    ∃ h', ParserHeap.onNodes h (Lists.listDel · (some x)) = returns h' ∧
      Mem h' cells (Function.update entries head (some l)) ∧
      ¬ Used (Function.update entries head (some l)) x := by
  have hsplit : entries head = some ([] ++ x :: l) := hlist
  obtain ⟨m', hm', hlists⟩ := step_represents hm.lists (.listDel hsplit)
  obtain ⟨h', hh', hmem⟩ := hm.onNodes (Lists.listDel · (some x)) hm' hlists
  exact ⟨h', hh', hmem, hm.lists.not_used_remove hsplit⟩

/-- A list that is not needed any more. -/
theorem Mem.drop (hm : Mem h cells entries) (head : Link) :
    Mem h cells (Function.update entries head none) :=
  ⟨hm.owns, hm.bounded, hm.positive, hm.lists.drop head⟩

end ChaosVpn.ParserHeap
