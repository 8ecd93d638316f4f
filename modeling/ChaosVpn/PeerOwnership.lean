import ChaosVpn.ParserOwnership
import Mathlib.Tactic.Abel

/-! The peers in the parser's memory, what they stand for, and the lines that change the
last of them. -/

namespace ChaosVpn.ParserMemory
open CStrings Blocks Behaviour LinkedNodes ChaosVpn.Lists ListRuns ListLoops Ownership ParserHeap
open Libc AddrMask
open PeerParser (PeerConfig ParserState headerName parserCheckConfigitem parserLines parsePort
  beginKey endKey tincDefaultPort)

structure PeerNode where
  node : Nat
  address : Nat
  texts : Field → Text
  subnets : Subnets → List StringNode
  plain : Plain

namespace PeerNode

def link (p : PeerNode) : Link := (p.node, .list)

def struct (p : PeerNode) : PeerStruct := ⟨fun f => (p.texts f).address, p.plain⟩

def strings (p : PeerNode) : Multiset Cell := (subnetLists.map fun s => stringCells (p.subnets s)).sum

def cells (p : PeerNode) : Multiset Cell :=
  {(p.node, .peerConfigList p.address), (p.address, .peerConfig p.struct)} +
    (textCells p.texts fields + p.strings)

/-- The peer that the structure stands for. -/
def value (p : PeerNode) : PeerConfig where
  name := (p.texts .name).contents
  gatewayhost := (p.texts .gatewayhost).contents
  owner := (p.texts .owner).contents
  network := (p.subnets .network).map (·.text.contents)
  network6 := (p.subnets .network6).map (·.text.contents)
  routeNetwork := (p.subnets .routeNetwork).map (·.text.contents)
  routeNetwork6 := (p.subnets .routeNetwork6).map (·.text.contents)
  hidden := p.plain.hidden
  silent := p.plain.silent
  port := p.plain.port
  key := (p.texts .key).contents
  ed25519publickey := (p.texts .ed25519publickey).contents
  cipher := (p.texts .cipher).contents
  compression := (p.texts .compression).contents
  digest := (p.texts .digest).contents
  primary := p.plain.primary
  useTcpOnly := p.plain.useTcpOnly
  indirectdata := p.plain.indirectdata

def setText (p : PeerNode) (f : Field) (t : Text) : PeerNode :=
  { p with texts := Function.update p.texts f t }

def addSubnet (p : PeerNode) (s : Subnets) (i : StringNode) : PeerNode :=
  { p with subnets := Function.update p.subnets s (p.subnets s ++ [i]) }

end PeerNode

variable {h : Heap} {cells : Multiset Cell} {entries : Entries} {fuel : Nat} {p : PeerNode}
  {f : Field} {line : Bytes}

/-- The cells of a peer, from the one of its structure on. -/
theorem PeerNode.cells_add (p : PeerNode) (cells : Multiset Cell) :
    p.cells + cells = (p.address, .peerConfig p.struct) ::ₘ
      (textCells p.texts fields + (p.strings + ((p.node, .peerConfigList p.address) ::ₘ cells))) := by
  simp only [PeerNode.cells, Multiset.insert_eq_cons, ← Multiset.singleton_add]
  abel

theorem textCells_erase (texts : Field → Text) (f : Field) :
    textCells texts fields = (texts f).cell ::ₘ textCells texts (fields.erase f) := by
  have hperm : fields.Perm (f :: fields.erase f) :=
    List.perm_cons_erase (by cases f <;> decide)
  exact Multiset.coe_eq_coe.mpr (hperm.map fun f => (texts f).cell)

theorem textCells_update (texts : Field → Text) (f : Field) (t : Text) :
    textCells (Function.update texts f t) (fields.erase f) = textCells texts (fields.erase f) := by
  refine congrArg _ (List.map_congr_left fun g hg => ?_)
  have hne : g ≠ f := by
    rintro rfl
    exact absurd hg (by cases g <;> decide)
  rw [Function.update_of_ne hne]

/-- A text of a peer is replaced. -/
theorem Replaces.peer {new : Bytes → Bytes} {change : Heap → Nat → Behaviour Heap}
    (hreplaces : Replaces f new change) (hm : Mem h (p.cells + cells) entries) :
    ∃ (h' : Heap) (t : Text), change h p.address = returns h' ∧
      t.contents = new (p.texts f).contents ∧ Mem h' ((p.setText f t).cells + cells) entries := by
  rw [p.cells_add, textCells_erase p.texts f, Multiset.cons_add] at hm
  obtain ⟨h', t, hchange, hcontents, hm'⟩ := hreplaces hm rfl
  refine ⟨h', t, hchange, hcontents, ?_⟩
  rw [PeerNode.cells_add, textCells_erase _ f, Multiset.cons_add]
  have hpointers : (p.setText f t).struct =
      { p.struct with texts := Function.update p.struct.texts f t.address } := by
    refine congrArg (PeerStruct.mk · p.plain) (funext fun g => ?_)
    by_cases hg : g = f <;> simp [PeerNode.setText, PeerNode.struct, hg]
  have htext : (p.setText f t).texts f = t := Function.update_self ..
  rw [hpointers, htext]
  simp only [PeerNode.setText, textCells_update]
  exact hm'

theorem strings_addSubnet (p : PeerNode) (s : Subnets) (i : StringNode) :
    (p.addSubnet s i).strings = i.cells + p.strings := by
  cases s <;> simp [PeerNode.strings, PeerNode.addSubnet, subnetLists, stringCells] <;> abel

theorem addSubnet_eq (hm : Mem h (p.cells + cells) entries) (s : Subnets)
    (hlist : entries (p.address, .subnets s) = some ((p.subnets s).map StringNode.link))
    (item : Bytes) :
    ∃ (h' : Heap) (i : StringNode), addStringlist h item (p.address, .subnets s) = returns h' ∧
      i.text.contents = item ∧ Mem h' ((p.addSubnet s i).cells + cells)
        (Function.update entries (p.address, .subnets s)
          (some (((p.addSubnet s i).subnets s).map StringNode.link))) := by
  obtain ⟨h', i, hadd, hitem, hm'⟩ := addStringlist_eq hm hlist item
  refine ⟨h', i, hadd, hitem, ?_⟩
  have hcells : (p.addSubnet s i).cells = i.cells + p.cells := by
    rw [PeerNode.cells, strings_addSubnet, PeerNode.cells]
    simp only [PeerNode.addSubnet, PeerNode.struct]
    abel
  rw [hcells, add_assoc]
  simpa [PeerNode.addSubnet] using hm'

theorem setPlain_eq (hm : Mem h (p.cells + cells) entries) (plain : Plain) :
    ∃ h', store h p.address (.peerConfig { p.struct with plain }) = returns h' ∧
      Mem h' (({ p with plain }).cells + cells) entries := by
  rw [p.cells_add] at hm
  obtain ⟨h', hstore, hm'⟩ := hm.store (.peerConfig { p.struct with plain }) rfl
  exact ⟨h', hstore, by rwa [PeerNode.cells_add]⟩

/-! Lines of a section -/

def PeerNode.Lists (p : PeerNode) (entries : Entries) : Prop :=
  ∀ s, entries (p.address, .subnets s) = some ((p.subnets s).map StringNode.link)

/-- The peer comes to stand for another one, and nothing else changes. -/
def Turns (p : PeerNode) (cells : Multiset Cell) (entries : Entries) (new : PeerConfig)
    (b : Behaviour Heap) : Prop :=
  ∃ (h' : Heap) (p' : PeerNode) (entries' : Entries), b = returns h' ∧ p'.value = new ∧
    p'.node = p.node ∧ p'.address = p.address ∧ Mem h' (p'.cells + cells) entries' ∧
    p'.Lists entries' ∧ ∀ x, x.1 ≠ p.address → entries' x = entries x

theorem Replaces.turns {new : Bytes → Bytes} {change : Heap → Nat → Behaviour Heap}
    (hreplaces : Replaces f new change) (hm : Mem h (p.cells + cells) entries)
    (hlists : p.Lists entries) {result : PeerConfig}
    (hresult : ∀ t : Text, t.contents = new (p.texts f).contents →
      (p.setText f t).value = result) :
    Turns p cells entries result (change h p.address) := by
  obtain ⟨h', t, hchange, hcontents, hm'⟩ := hreplaces.peer hm
  exact ⟨h', p.setText f t, entries, hchange, hresult t hcontents, rfl, rfl, hm', hlists,
    fun _ _ => rfl⟩

/-- What an item does in memory is what it does to the peer. -/
def Matches (libc : CLibrary) (effect : Effect) (change : Bytes → PeerConfig → PeerConfig) : Prop :=
  ∀ ⦃h : Heap⦄ ⦃p : PeerNode⦄ ⦃cells : Multiset Cell⦄ ⦃entries : Entries⦄ (item : Bytes),
    Mem h (p.cells + cells) entries → p.Lists entries →
      Turns p cells entries (change item p.value) (apply libc h p.address item effect)

variable {libc : CLibrary} {change : Bytes → PeerConfig → PeerConfig}

theorem matches_replace
    (hchange : ∀ (p : PeerNode) (t : Text), (p.setText f t).value = change t.contents p.value) :
    Matches libc (.replace f) change := by
  intro h p cells entries item hm hlists
  refine (parserReplaceItem_replaces f item).turns hm hlists fun t ht => ?_
  rw [hchange, ht]

theorem matches_subnet {family : Family} {s : Subnets}
    (hchange : ∀ (p : PeerNode) (i : StringNode), change i.text.contents p.value =
      if addrmaskVerifySubnet libc i.text.contents (some family) then (p.addSubnet s i).value
      else p.value) : Matches libc (.subnet family s) change := by
  intro h p cells entries item hm hlists
  by_cases hverify : addrmaskVerifySubnet libc item (some family) = true
  · obtain ⟨h', i, hadd, rfl, hm'⟩ := addSubnet_eq hm s (hlists s) item
    refine ⟨h', p.addSubnet s i, _, ?_, ?_, rfl, rfl, hm', fun s' => ?_, fun x hx => ?_⟩
    · rw [apply, if_pos hverify, hadd]
    · rw [hchange, if_pos hverify]
    · by_cases hs : s' = s
      · subst hs
        exact Function.update_self ..
      · have hne : ((p.address, .subnets s') : Link) ≠ (p.address, .subnets s) := by simpa using hs
        have hsame : (p.addSubnet s i).subnets s' = p.subnets s' := Function.update_of_ne hs ..
        rw [hsame]
        exact (Function.update_of_ne hne ..).trans (hlists s')
    · exact Function.update_of_ne (fun heq => hx (congrArg Prod.fst heq)) ..
  · refine ⟨h, p, entries, ?_, ?_, rfl, rfl, hm, hlists, fun _ _ => rfl⟩
    · rw [apply, if_neg hverify]
    · exact ((hchange p ⟨0, 0, 0, item⟩).trans (if_neg hverify)).symm

theorem matches_set {set : Bytes → Plain → Plain}
    (hchange : ∀ (p : PeerNode) (item : Bytes),
      ({ p with plain := set item p.plain } : PeerNode).value = change item p.value) :
    Matches libc (.set set) change := by
  intro h p cells entries item hm hlists
  obtain ⟨h', hstore, hm'⟩ := setPlain_eq hm (set item p.plain)
  have hload : loadPeerConfig h p.address = returns p.struct := by
    rw [p.cells_add] at hm
    exact loadPeerConfig_eq hm
  refine ⟨h', { p with plain := set item p.plain }, entries, ?_, hchange p item, rfl, rfl, hm', hlists,
    fun _ _ => rfl⟩
  simp only [apply, hload, returns_bind]
  exact hstore

/-- The items in memory and those of the peers are the same, one by one. -/
theorem configItems_match (libc : CLibrary) :
    List.Forall₂ (fun e e' => e.1 = e'.1 ∧ Matches libc e.2 e'.2) configItems
      (PeerParser.configItems libc) := by
  have hignore : Matches libc .ignore fun _ p => p := fun h p _ entries _ hm hlists =>
    ⟨h, p, entries, rfl, rfl, rfl, rfl, hm, hlists, fun _ _ => rfl⟩
  have hnetwork : Matches libc (.subnet .inet .network) fun item p =>
      { p with network := PeerParser.addSubnet libc .inet p.network item } := matches_subnet fun p i => by
    unfold PeerParser.addSubnet
    split <;> simp [*, PeerNode.value, PeerNode.addSubnet]
  have hnetwork6 : Matches libc (.subnet .inet6 .network6) fun item p =>
      { p with network6 := PeerParser.addSubnet libc .inet6 p.network6 item } := matches_subnet fun p i => by
    unfold PeerParser.addSubnet
    split <;> simp [*, PeerNode.value, PeerNode.addSubnet]
  have hrouteNetwork : Matches libc (.subnet .inet .routeNetwork) fun item p =>
      { p with routeNetwork := PeerParser.addSubnet libc .inet p.routeNetwork item } := matches_subnet fun p i => by
    unfold PeerParser.addSubnet
    split <;> simp [*, PeerNode.value, PeerNode.addSubnet]
  have hrouteNetwork6 : Matches libc (.subnet .inet6 .routeNetwork6) fun item p =>
      { p with routeNetwork6 := PeerParser.addSubnet libc .inet6 p.routeNetwork6 item } := matches_subnet fun p i => by
    unfold PeerParser.addSubnet
    split <;> simp [*, PeerNode.value, PeerNode.addSubnet]
  unfold configItems PeerParser.configItems
  repeat' apply List.Forall₂.cons
  all_goals first
    | exact .nil
    | exact ⟨rfl, matches_replace fun _ _ => rfl⟩
    | exact ⟨rfl, matches_set fun _ _ => rfl⟩
    | exact ⟨rfl, hnetwork⟩
    | exact ⟨rfl, hnetwork6⟩
    | exact ⟨rfl, hrouteNetwork⟩
    | exact ⟨rfl, hrouteNetwork6⟩
    | exact ⟨rfl, hignore⟩

end ChaosVpn.ParserMemory
