import ChaosVpn.ParserMemory
import Mathlib.Algebra.BigOperators.Group.Multiset.Basic

/-! Who owns which block of the parser: each node of a list its text, each peer its texts
and lists, and the list of the configuration its peers. -/

namespace ChaosVpn.ParserMemory
open CStrings Blocks Behaviour LinkedNodes ChaosVpn.Lists ListRuns ListLoops Ownership ParserHeap
open Libc AddrMask
open PeerParser (PeerConfig ParserState headerName parserCheckConfigitem parserLines parsePort
  beginKey endKey tincDefaultPort)

abbrev Entries := Link → Option (List Link)

structure Text where
  address : Nat
  size : Nat
  contents : Bytes

def Text.cell (t : Text) : Cell := (t.address, .text t.size t.contents)

structure StringNode where
  node : Nat
  text : Text

namespace StringNode

def link (i : StringNode) : Link := (i.node, .list)

def cells (i : StringNode) : Multiset Cell := {(i.node, .stringList i.text.address), i.text.cell}

theorem cells_add (i : StringNode) (cells : Multiset Cell) :
    i.cells + cells = (i.node, .stringList i.text.address) ::ₘ i.text.cell ::ₘ cells := by
  simp [StringNode.cells, Multiset.insert_eq_cons]

end StringNode

def stringCells (l : List StringNode) : Multiset Cell := (l.map StringNode.cells).sum

variable {h : Heap} {cells : Multiset Cell} {entries : Entries} {p n fuel : Nat} {s line : Bytes}
  {head : Link} {l : List Link} {r : PeerStruct} {f : Field} {t : Text}

/-! Texts -/

theorem loadText_eq (hm : Mem h ((p, .text n s) ::ₘ cells) entries) :
    loadText h p = returns s := by
  simp [loadText, hm.load]

theorem loadPeerConfig_eq (hm : Mem h ((p, .peerConfig r) ::ₘ cells) entries) :
    loadPeerConfig h p = returns r := by
  simp [loadPeerConfig, hm.load]

theorem strcat_eq (hm : Mem h ((p, .text n s) ::ₘ cells) entries) (line : Bytes)
    (hroom : s.length + line.length < n) :
    ∃ h', strcat h p line = returns h' ∧ Mem h' ((p, .text n (s ++ line)) ::ₘ cells) entries := by
  obtain ⟨h', hstore, hm'⟩ := hm.store (.text n (s ++ line)) rfl
  exact ⟨h', by simp [strcat, hm.load, hroom, hstore], hm'⟩

theorem freeText (hm : Mem h (t.cell ::ₘ cells) entries) :
    ∃ h', free h t.address = returns h' ∧ Mem h' cells entries :=
  hm.free fun _ hmember => absurd hmember List.not_mem_nil

/-- A pointer that pointed to nothing of its own. -/
theorem setText_eq (hm : Mem h ((p, .peerConfig r) ::ₘ cells) entries) (f : Field) (s : Bytes) :
    ∃ (h' : Heap) (t : Text), setText h p f s = returns h' ∧ t.contents = s ∧
      Mem h' ((p, .peerConfig { r with texts := Function.update r.texts f t.address }) ::ₘ
        t.cell ::ₘ cells) entries := by
  have hm₁ := (hm.allocate (.text (s.length + 1) s)).1
  rw [Multiset.cons_swap] at hm₁
  obtain ⟨h', hstore, hm'⟩ := hm₁.store
    (.peerConfig { r with texts := Function.update r.texts f h.fresh }) rfl
  refine ⟨h', ⟨h.fresh, s.length + 1, s⟩, ?_, rfl, hm'⟩
  simp only [setText, strdup, malloc, loadPeerConfig_eq hm₁, returns_bind, hstore]

/-- What the functions that change a text do: the old block is given back. -/
def Replaces (f : Field) (new : Bytes → Bytes) (change : Heap → Nat → Behaviour Heap) : Prop :=
  ∀ ⦃h : Heap⦄ ⦃p : Nat⦄ ⦃r : PeerStruct⦄ ⦃t : Text⦄ ⦃cells : Multiset Cell⦄ ⦃entries : Entries⦄,
    Mem h ((p, .peerConfig r) ::ₘ t.cell ::ₘ cells) entries → r.texts f = t.address →
      ∃ (h' : Heap) (t' : Text), change h p = returns h' ∧ t'.contents = new t.contents ∧
        Mem h' ((p, .peerConfig { r with texts := Function.update r.texts f t'.address }) ::ₘ
          t'.cell ::ₘ cells) entries

theorem parserReplaceItem_replaces (f : Field) (newitem : Bytes) :
    Replaces f (fun _ => newitem) fun h p => parserReplaceItem h p f newitem := by
  intro h p r t cells entries hm hpointer
  have hload := loadPeerConfig_eq hm
  rw [Multiset.cons_swap] at hm
  obtain ⟨h₁, hfree, hm₁⟩ := freeText hm
  obtain ⟨h', t', hset, hcontents, hm'⟩ := setText_eq hm₁ f newitem
  refine ⟨h', t', ?_, hcontents, hm'⟩
  simp only [parserReplaceItem, hload, returns_bind, hpointer, hfree, hset]

/-- A block with room for it is put in place and the end of the line behind what is in it. -/
theorem putKey (hm : Mem h ((p, .peerConfig r) ::ₘ cells) entries) (s line : Bytes)
    (hroom : s.length + line.length < n) :
    ∃ h₁ h', store (h.allocate (.text n s)) p
        (.peerConfig { r with texts := Function.update r.texts .key h.fresh }) = returns h₁ ∧
      strcat h₁ h.fresh line = returns h' ∧
      Mem h' ((h.fresh, .text n (s ++ line)) ::ₘ
        (p, .peerConfig { r with texts := Function.update r.texts .key h.fresh }) ::ₘ cells)
        entries := by
  have hm₁ := (hm.allocate (.text n s)).1
  rw [Multiset.cons_swap] at hm₁
  obtain ⟨h₁, hstore, hm₂⟩ := hm₁.store
    (.peerConfig { r with texts := Function.update r.texts .key h.fresh }) rfl
  rw [Multiset.cons_swap] at hm₂
  obtain ⟨h', hcat, hm'⟩ := strcat_eq hm₂ line hroom
  exact ⟨h₁, h', hstore, hcat, hm'⟩

theorem parserExtendKey_replaces (line : Bytes) :
    Replaces .key (fun key => key ++ line ++ [lineFeed]) fun h p => parserExtendKey h p line := by
  intro h p r t cells entries hm hpointer
  have hload := loadPeerConfig_eq hm
  rw [Multiset.cons_swap] at hm
  have hkey : loadText h t.address = returns t.contents := loadText_eq hm
  obtain ⟨h₁, hfree, hm₁⟩ := freeText hm
  have hroom : t.contents.length + line.length < t.contents.length + line.length + 2 := by omega
  obtain ⟨h₂, h₃, hstore, hcat, hm₃⟩ := putKey hm₁ t.contents line hroom
  obtain ⟨h', hcat', hm'⟩ := strcat_eq hm₃ [lineFeed] (by simp)
  rw [Multiset.cons_swap] at hm'
  refine ⟨h', ⟨h₁.fresh, _, _⟩, ?_, rfl, hm'⟩
  simp only [parserExtendKey, hload, returns_bind, hpointer, hkey, realloc, hfree, pure_eq_returns,
    malloc, hstore, hcat, hcat']

theorem parserBeginKey_replaces (line : Bytes) :
    Replaces .key (fun _ => line ++ [lineFeed]) fun h p => parserBeginKey h p line := by
  intro h p r t cells entries hm hpointer
  have hload := loadPeerConfig_eq hm
  rw [Multiset.cons_swap] at hm
  obtain ⟨h₁, hfree, hm₁⟩ := freeText hm
  have hroom : line.length + [lineFeed].length < line.length + 2 := by simp
  obtain ⟨h₂, h', hstore, hcat, hm'⟩ := putKey hm₁ line [lineFeed] hroom
  rw [Multiset.cons_swap] at hm'
  refine ⟨h', ⟨h₁.fresh, _, _⟩, ?_, rfl, hm'⟩
  simp only [parserBeginKey, hload, returns_bind, hpointer, hfree, malloc, hstore, hcat]

/-! Lists of texts -/

theorem addStringlist_eq (hm : Mem h cells entries) (hlist : entries head = some l) (item : Bytes) :
    ∃ (h' : Heap) (i : StringNode), addStringlist h item head = returns h' ∧ i.text.contents = item ∧
      Mem h' (i.cells + cells) (Function.update entries head (some (l ++ [i.link]))) := by
  obtain ⟨hm₁, hunused⟩ := hm.allocate (.stringList 0)
  have hm₂ := (hm₁.allocate (.text (item.length + 1) item)).1
  rw [Multiset.cons_swap] at hm₂
  obtain ⟨h₃, hstore, hm₃⟩ := hm₂.store (.stringList (h.allocate (.stringList 0)).fresh) rfl
  have hlive : ((h.fresh, .list) : Link) ∈ h₃.links := hm₃.link_live (by simp [Block.members])
  obtain ⟨h', hadd, hm'⟩ := hm₃.listAddTail hlive (hunused .list) hlist
  refine ⟨h', ⟨h.fresh, (h.allocate (.stringList 0)).fresh, item.length + 1, item⟩,
    ?_, rfl, ?_⟩
  · simp only [addStringlist, parserStringlist, strdup, malloc, hstore, returns_bind,
      pure_eq_returns, hadd]
  · rw [StringNode.cells_add]
    exact hm'

theorem stringCells_cons (i : StringNode) (l : List StringNode) (cells : Multiset Cell) :
    stringCells (i :: l) + cells = (i.node, .stringList i.text.address) ::ₘ i.text.cell ::ₘ
      (stringCells l + cells) := by
  rw [stringCells, List.map_cons, List.sum_cons, add_assoc, StringNode.cells_add]
  rfl

theorem parserDeleteStringList_eq {l : List StringNode}
    (hm : Mem h (stringCells l + cells) entries)
    (hlist : entries head = some (l.map StringNode.link)) (hfuel : l.length < fuel) :
    ∃ h', parserDeleteStringList fuel h head = returns h' ∧
      Mem h' cells (Function.update entries head (some [])) := by
  have hrule := @listForEachSafe_rule Link Heap _ head (l.map StringNode.link) fuel h Heap.nodes
    (fun h i => do
      let item ← containerOf i
      let text ← loadStringList h item
      let h ← free h text
      let h ← onNodes h (listDel · i)
      free h item)
    (fun links h => ∃ rest : List StringNode, links = rest.map StringNode.link ∧
      Mem h (stringCells rest + cells) (Function.update entries head (some links))) ?_ ?_ ?_ ?_
  · obtain ⟨h', hloop, rest, hrest, hm'⟩ := hrule
    obtain rfl := List.map_eq_nil_iff.mp hrest.symm
    exact ⟨h', hloop, by simpa [stringCells] using hm'⟩
  · intro links h hP
    obtain ⟨rest, rfl, hm⟩ := hP
    exact hm.lists.ring head _ (Function.update_self ..)
  · intro x links h hP
    obtain ⟨rest, hrest, hm⟩ := hP
    obtain ⟨i, rest, rfl, rfl, rfl⟩ := List.map_eq_cons_iff.mp hrest.symm
    rw [stringCells_cons] at hm
    have htext : loadStringList h i.node = returns i.text.address := by
      simp [loadStringList, hm.load]
    rw [Multiset.cons_swap] at hm
    obtain ⟨h₁, hfree, hm₁⟩ := freeText hm
    obtain ⟨h₂, hdel, hm₂, hunused⟩ := hm₁.listDel (Function.update_self ..)
    obtain ⟨h', hfree', hm'⟩ := hm₂.free fun m hmember => by
      obtain rfl := List.mem_singleton.mp hmember
      exact hunused
    refine ⟨h', ?_, rest, rfl, by simpa using hm'⟩
    have hcontainer : containerOf (some i.link) = returns i.node := rfl
    simp only [hcontainer, returns_bind, htext, hfree, hdel, hfree']
  · exact ⟨l, rfl, by rwa [← hlist, Function.update_eq_self]⟩
  · simpa using hfuel

/-! Heads of lists -/

def clear (entries : Entries) (heads : List Link) (value : Option (List Link)) : Entries :=
  fun x => if x ∈ heads then value else entries x

theorem clear_nil (entries : Entries) (value : Option (List Link)) :
    clear entries [] value = entries := by
  funext x
  simp [clear]

theorem clear_cons (entries : Entries) (head : Link) (heads : List Link)
    (value : Option (List Link)) :
    clear (Function.update entries head value) heads value = clear entries (head :: heads) value := by
  funext x
  by_cases hx : x = head <;> simp [clear, hx]

/-- The lists of one peer. -/
def heads (p : Nat) (ss : List Subnets) : List Link := ss.map fun s => (p, .subnets s)

theorem mem_heads {x : Link} {ss : List Subnets} :
    x ∈ heads p ss ↔ ∃ s ∈ ss, x = (p, .subnets s) := by
  simp [heads, eq_comm]

theorem subnets_ne {ss : List Subnets} {s s' : Subnets} (hs : s ∉ ss) (hs' : s' ∈ ss) (p : Nat) :
    ((p, .subnets s') : Link) ≠ (p, .subnets s) := by
  intro heq
  obtain rfl : s' = s := by simpa using heq
  exact hs hs'

theorem unused_put_nil {x : Link} (hunused : ¬ Used entries x) (hne : x ≠ head) :
    ¬ Used (Function.update entries head (some [])) x := by
  rintro ⟨head', l, hl, hx⟩
  by_cases heq : head' = head
  · rw [heq, Function.update_self] at hl
    obtain rfl := Option.some.inj hl
    exact hne ((List.mem_singleton.mp hx).trans heq)
  · rw [Function.update_of_ne heq] at hl
    exact hunused ⟨head', l, hl, hx⟩

theorem initLists_eq (hm : Mem h ((p, .peerConfig r) ::ₘ cells) entries) {ss : List Subnets}
    (hnodup : ss.Nodup) (hunused : ∀ s, s ∈ ss → ¬ Used entries (p, .subnets s)) :
    ∃ h', ss.foldlM (fun h s => onNodes h (initListHead · (some (p, .subnets s)))) h = returns h' ∧
      Mem h' ((p, .peerConfig r) ::ₘ cells) (clear entries (heads p ss) (some [])) := by
  induction ss generalizing h entries with
  | nil => exact ⟨h, rfl, by rwa [heads, List.map_nil, clear_nil]⟩
  | cons s ss ih =>
    obtain ⟨hs, hss⟩ := List.nodup_cons.mp hnodup
    have hlive : (p, .subnets s) ∈ h.links :=
      hm.link_live (by cases s <;> simp [Block.members, subnetLists])
    obtain ⟨h₁, hinit, hm₁⟩ := hm.initListHead hlive (.inl (hunused s (by simp)))
    obtain ⟨h', hloop, hm'⟩ := ih hm₁ hss fun s' hs' =>
      unused_put_nil (hunused s' (by simp [hs'])) (subnets_ne hs hs' p)
    refine ⟨h', by rw [List.foldlM_cons, hinit, returns_bind, hloop], ?_⟩
    rwa [clear_cons] at hm'

/-- The heads of empty lists are given up. -/
theorem dropHeads (hm : Mem h cells entries) (hs : List Link)
    (hempty : ∀ x ∈ hs, entries x = some []) :
    Mem h cells (clear entries hs none) ∧ ∀ x ∈ hs, ¬ Used (clear entries hs none) x := by
  have hkept : ∀ {head l}, clear entries hs none head = some l → head ∉ hs ∧ entries head = some l := by
    intro head l hl
    unfold clear at hl
    split at hl
    · cases hl
    · exact ⟨‹_›, hl⟩
  refine ⟨⟨hm.owns, hm.bounded, hm.positive, hm.lists.live,
    fun head l hl => hm.lists.ring head l (hkept hl).2, ?_⟩, ?_⟩
  · rintro head head' x ⟨l, hl, hx⟩ ⟨l', hl', hx'⟩
    exact hm.lists.apart head head' x ⟨l, (hkept hl).2, hx⟩ ⟨l', (hkept hl').2, hx'⟩
  · rintro x hx ⟨head, l, hl, hmem⟩
    obtain ⟨hout, hl⟩ := hkept hl
    have heq := hm.lists.apart head x x ⟨l, hl, hmem⟩ ⟨[], hempty x hx, List.mem_cons_self⟩
    exact hout (heq ▸ hx)

theorem deleteLists_eq {strings : Subnets → List StringNode} {ss : List Subnets}
    (hm : Mem h ((ss.map fun s => stringCells (strings s)).sum + cells) entries)
    (hnodup : ss.Nodup)
    (hlists : ∀ s ∈ ss, entries (p, .subnets s) = some ((strings s).map StringNode.link))
    (hfuel : ∀ s ∈ ss, (strings s).length < fuel) :
    ∃ h', ss.foldlM (fun h s => parserDeleteStringList fuel h (p, .subnets s)) h = returns h' ∧
      Mem h' cells (clear entries (heads p ss) (some [])) := by
  induction ss generalizing h entries with
  | nil =>
    rw [List.map_nil, List.sum_nil, zero_add] at hm
    exact ⟨h, rfl, by rwa [heads, List.map_nil, clear_nil]⟩
  | cons s ss ih =>
    obtain ⟨hs, hss⟩ := List.nodup_cons.mp hnodup
    rw [List.map_cons, List.sum_cons, add_assoc] at hm
    obtain ⟨h₁, hdelete, hm₁⟩ :=
      parserDeleteStringList_eq hm (hlists s (by simp)) (hfuel s (by simp))
    obtain ⟨h', hloop, hm'⟩ := ih hm₁ hss
      (fun s' hs' => by rw [Function.update_of_ne (subnets_ne hs hs' p), hlists s' (by simp [hs'])])
      fun s' hs' => hfuel s' (by simp [hs'])
    refine ⟨h', by rw [List.foldlM_cons, hdelete, returns_bind, hloop], ?_⟩
    rwa [clear_cons] at hm'

/-! Peers -/

def textCells (texts : Field → Text) (fs : List Field) : Multiset Cell :=
  ↑(fs.map fun f => (texts f).cell)

theorem textCells_cons (texts : Field → Text) (f : Field) (fs : List Field) (cells : Multiset Cell) :
    textCells texts (f :: fs) + cells = (texts f).cell ::ₘ (textCells texts fs + cells) := by
  rw [textCells, List.map_cons, ← Multiset.cons_coe, Multiset.cons_add]
  rfl

theorem setTexts_eq (hm : Mem h ((p, .peerConfig r) ::ₘ cells) entries) {fs : List Field}
    (hnodup : fs.Nodup) (contents : Field → Bytes) :
    ∃ (h' : Heap) (texts : Field → Text),
      fs.foldlM (fun h f => setText h p f (contents f)) h = returns h' ∧
      (∀ f ∈ fs, (texts f).contents = contents f) ∧
      Mem h' ((p, .peerConfig
        { r with texts := fun f => if f ∈ fs then (texts f).address else r.texts f }) ::ₘ
          (textCells texts fs + cells)) entries := by
  induction fs generalizing h r cells with
  | nil => exact ⟨h, fun _ => ⟨0, 0, []⟩, rfl, by simp, by simpa [textCells] using hm⟩
  | cons f fs ih =>
    obtain ⟨hf, hfs⟩ := List.nodup_cons.mp hnodup
    obtain ⟨h₁, t, hset, hcontents, hm₁⟩ := setText_eq hm f (contents f)
    obtain ⟨h', texts, hloop, htexts, hm'⟩ := ih hm₁ hfs
    have hne : ∀ g ∈ fs, g ≠ f := fun g hg heq => hf (heq ▸ hg)
    refine ⟨h', Function.update texts f t, by rw [List.foldlM_cons, hset, returns_bind, hloop], ?_, ?_⟩
    · intro g hg
      by_cases hgf : g = f
      · subst hgf
        simpa using hcontents
      · rw [Function.update_of_ne hgf, htexts g (by simpa [hgf] using hg)]
    · have hcells : textCells (Function.update texts f t) fs = textCells texts fs := by
        refine congrArg _ (List.map_congr_left fun g hg => ?_)
        rw [Function.update_of_ne (hne g hg)]
      have hpointers : (fun g => if g ∈ f :: fs then (Function.update texts f t g).address
          else r.texts g) =
          fun g => if g ∈ fs then (texts g).address else Function.update r.texts f t.address g := by
        funext g
        by_cases hgf : g = f
        · subst hgf
          simp [hf]
        · simp [hgf]
      rw [textCells_cons, Function.update_self, hcells, hpointers]
      simpa [Multiset.add_cons] using hm'

theorem freeTexts_eq {texts : Field → Text} {fs : List Field}
    (hm : Mem h (textCells texts fs + cells) entries) :
    ∃ h', fs.foldlM (fun h f => free h (texts f).address) h = returns h' ∧ Mem h' cells entries := by
  induction fs generalizing h with
  | nil => exact ⟨h, rfl, by simpa [textCells] using hm⟩
  | cons f fs ih =>
    rw [textCells_cons] at hm
    obtain ⟨h₁, hfree, hm₁⟩ := freeText hm
    obtain ⟨h', hloop, hm'⟩ := ih hm₁
    exact ⟨h', by rw [List.foldlM_cons, hfree, returns_bind, hloop], hm'⟩

end ChaosVpn.ParserMemory
