import ChaosVpn.ParserRefinement
import ChaosVpn.FetchAndApply
import Mathlib.Data.List.TakeWhile

/-! The memory of the parser over whole texts and over the calls of
main_fetch_and_apply_config: what is made of a text, and that all of it is given back. -/

namespace ChaosVpn.ParserMemory
open CStrings Blocks Behaviour LinkedNodes ChaosVpn.Lists ListRuns ListLoops Ownership ParserHeap
open Libc AddrMask Settings FetchAndApply
open PeerParser (PeerConfig parserLines)

/-- The memory between two texts. -/
structure AtRest (h : Heap) (frame : Multiset Cell) (ps : List PeerNode) (entries : Entries) :
    Prop where
  mem : Mem h (peerCells ps + frame) entries
  configlist : entries configlist = some (ps.map PeerNode.link)
  lists : ∀ p ∈ ps, p.Lists entries
  unwarned : ¬ Used entries doneUnknownWarnings

variable {libc : CLibrary} {h : Heap} {frame cells : Multiset Cell} {entries entries' : Entries}
  {fuel : Nat} {old ps : List PeerNode} {p : PeerNode}

/-! Parsing -/

theorem parserLines_cstr (data : Bytes) : parserLines (cstr data) = parserLines data := by
  simp only [parserLines, cstr, List.takeWhile_idem]

theorem parserParseConfig_eq (libc : CLibrary) (hr : AtRest h frame old entries) (data : Bytes)
    (hfuel : (parserLines data).length < fuel) :
    ∃ (h' : Heap) (new : List PeerNode) (entries' : Entries),
      parserParseConfig libc fuel h data = returns h' ∧
      new.map PeerNode.value = PeerParser.parserParseConfig libc data ∧
      AtRest h' frame (old ++ new) entries' := by
  obtain ⟨h₁, hinit, hm₁⟩ := hr.mem.initListHead (.inr (.inl rfl)) (.inl hr.unwarned)
  have hm₂ := (hm₁.allocate (.text ((cstr data).length + 1) (cstr data))).1
  have hload := loadText_eq hm₂
  have ho : Owned (h₁.allocate (.text ((cstr data).length + 1) (cstr data)))
      ((h₁.fresh, .text ((cstr data).length + 1) (cstr data)) ::ₘ frame) [] old
      (Function.update entries doneUnknownWarnings (some [])) := by
    refine ⟨?_, ?_, Function.update_self .., fun p hp s => ?_⟩
    · simpa [stringCells, Multiset.add_cons] using hm₂
    · exact (Function.update_of_ne (by decide) ..).trans hr.configlist
    · exact (Function.update_of_ne (by simp [doneUnknownWarnings]) ..).trans (hr.lists p hp s)
  obtain ⟨h₃, ps, st, warnings, entries₃, hlines, hf, ho₃, hlength⟩ :=
    parseLines_eq libc ho (.start false) (parserLines data) (by simpa using hfuel)
  obtain ⟨new, rfl, hnew⟩ := hf.peers
  have hm₃ := ho₃.mem
  rw [Multiset.add_cons, Multiset.add_cons] at hm₃
  obtain ⟨h₄, hfree, hm₄⟩ := hm₃.free fun m hmember => absurd hmember List.not_mem_nil
  obtain ⟨h', hdelete, hm'⟩ := parserDeleteStringList_eq hm₄ ho₃.warned
    (by simpa using Nat.lt_of_le_of_lt hlength (by simpa using hfuel))
  obtain ⟨hdropped, hunused⟩ := dropHeads hm' [doneUnknownWarnings] (by simp)
  refine ⟨h', new, _, ?_, hnew, hdropped, ?_, fun p hp s => ?_, hunused _ (by simp)⟩
  · rw [parserParseConfig, hinit, returns_bind]
    simp only [strdup, malloc, hload, returns_bind, parserLines_cstr, hlines, hfree, hdelete]
  · rw [clear_of_notMem (by decide), Function.update_of_ne (by decide)]
    exact ho₃.configlist
  · rw [clear_of_notMem (by simp [doneUnknownWarnings]),
      Function.update_of_ne (by simp [doneUnknownWarnings])]
    exact ho₃.lists p hp s

/-! Giving back -/

theorem peer_to_front (p : PeerNode) (cells : Multiset Cell) :
    p.cells + cells = textCells p.texts fields + (p.strings +
      ((p.address, .peerConfig p.struct) ::ₘ (p.node, .peerConfigList p.address) ::ₘ cells)) := by
  rw [p.cells_add]
  simp only [← Multiset.singleton_add]
  abel

theorem parserFreePeerConfig_eq (hm : Mem h (p.cells + cells) entries) (hlists : p.Lists entries)
    (hfuel : ∀ s, (p.subnets s).length < fuel) :
    ∃ h', parserFreePeerConfig fuel h p.address = returns h' ∧
      Mem h' ((p.address, .peerConfig p.struct) ::ₘ (p.node, .peerConfigList p.address) ::ₘ cells)
        (clear entries (heads p.address subnetLists) (some [])) := by
  have hload : loadPeerConfig h p.address = returns p.struct := by
    rw [p.cells_add] at hm
    exact loadPeerConfig_eq hm
  rw [peer_to_front] at hm
  obtain ⟨h₁, htexts, hm₁⟩ := freeTexts_eq hm
  obtain ⟨h', hdelete, hm'⟩ := deleteLists_eq hm₁ (by decide) (fun s _ => hlists s)
    fun s _ => hfuel s
  refine ⟨h', ?_, hm'⟩
  rw [parserFreePeerConfig, hload, returns_bind]
  simp only [PeerNode.struct, htexts, returns_bind, hdelete]

theorem clear_clear (entries : Entries) (hs : List Link) (value value' : Option (List Link)) :
    clear (clear entries hs value) hs value' = clear entries hs value' := by
  funext x
  by_cases hx : x ∈ hs <;> simp [clear, hx]

theorem used_of_clear {x : Link} {hs : List Link} (hused : Used (clear entries hs none) x) :
    Used entries x := by
  obtain ⟨head, l, hl, hx⟩ := hused
  unfold clear at hl
  split at hl
  · cases hl
  · exact ⟨head, l, hl, hx⟩

theorem used_of_shorter {head x y : Link} {l : List Link} (hlist : entries head = some (x :: l))
    (hused : Used (Function.update entries head (some l)) y) : Used entries y := by
  obtain ⟨head', l', hl', hy⟩ := hused
  by_cases heq : head' = head
  · rw [heq, Function.update_self] at hl'
    obtain rfl := Option.some.inj hl'
    refine ⟨head, x :: l, hlist, ?_⟩
    rw [heq] at hy
    exact (List.cons_subset_cons head (List.subset_cons_self x l)) hy
  · rw [Function.update_of_ne heq] at hl'
    exact ⟨head', l', hl', hy⟩

/-- One round of the loop: the first peer of the list with all that it owns. -/
theorem freePeer_eq (hr : AtRest h frame (p :: ps) entries)
    (hfuel : ∀ s, (p.subnets s).length < fuel) :
    ∃ (h' : Heap) (entries' : Entries),
      (do
        let item ← containerOf (some p.link)
        let peer ← loadPeerConfigList h item
        let h ← parserFreePeerConfig fuel h peer
        let h ← free h peer
        let h ← onNodes h (listDel · (some p.link))
        free h item) = returns h' ∧ AtRest h' frame ps entries' := by
  have hm := hr.mem
  have hcells : peerCells (p :: ps) + frame = p.cells + (peerCells ps + frame) := by
    simp [peerCells, add_assoc]
  rw [hcells] at hm
  have haddress : ∀ q ∈ ps, q.address ≠ p.address := fun q hq => address_ne hm (struct_mem hq frame)
  have hload : loadPeerConfigList h p.node = returns p.address := by
    have hmem : (p.node, Block.peerConfigList p.address) ∈ p.cells + (peerCells ps + frame) :=
      Multiset.mem_add.mpr (.inl (by simp [PeerNode.cells]))
    simp [loadPeerConfigList, load_of_mem hm hmem]
  obtain ⟨h₁, hpeer, hm₁⟩ := parserFreePeerConfig_eq hm (hr.lists p (by simp)) hfuel
  obtain ⟨hm₂, hunused⟩ := dropHeads hm₁ (heads p.address subnetLists)
    fun x hx => if_pos hx
  rw [clear_clear] at hm₂ hunused
  obtain ⟨h₂, hfree, hm₃⟩ := hm₂.free fun m hmember => by
    obtain ⟨s, hs, rfl⟩ := List.mem_map.mp hmember
    exact hunused _ (mem_heads.mpr ⟨s, hs, rfl⟩)
  have hlist : clear entries (heads p.address subnetLists) none configlist =
      some (p.link :: ps.map PeerNode.link) :=
    (clear_of_notMem (static_notMem_heads (by simp [configlist]) _ _)).trans hr.configlist
  obtain ⟨h₃, hdel, hm₄, hout⟩ := hm₃.listDel hlist
  obtain ⟨h', hfree', hm'⟩ := hm₄.free fun m hmember => by
    obtain rfl := List.mem_singleton.mp hmember
    exact hout
  refine ⟨h', _, ?_, hm', Function.update_self .., fun q hq s => ?_, fun hused => ?_⟩
  · have hcontainer : containerOf (some p.link) = returns p.node := rfl
    simp only [hcontainer, returns_bind, hload, hpeer, hfree, hdel, hfree']
  · rw [Function.update_of_ne (by simp [configlist]), clear_of_notMem]
    · exact hr.lists q (by simp [hq]) s
    · rw [mem_heads]
      rintro ⟨s', -, heq⟩
      exact haddress q hq (congrArg Prod.fst heq)
  · exact hr.unwarned (used_of_clear (used_of_shorter hlist hused))

theorem parserFreeConfig_eq (hr : AtRest h frame ps entries) (hlength : ps.length < fuel)
    (hfuel : ∀ p ∈ ps, ∀ s, (p.subnets s).length < fuel) :
    ∃ (h' : Heap) (entries' : Entries), parserFreeConfig fuel h = returns h' ∧
      AtRest h' frame [] entries' := by
  have hrule := @listForEachSafe_rule Link Heap _ configlist (ps.map PeerNode.link) fuel h Heap.nodes
    (fun h i => do
      let item ← containerOf i
      let peer ← loadPeerConfigList h item
      let h ← parserFreePeerConfig fuel h peer
      let h ← free h peer
      let h ← onNodes h (listDel · i)
      free h item)
    (fun links h => ∃ (rest : List PeerNode) (entries : Entries), links = rest.map PeerNode.link ∧
      (∀ p ∈ rest, ∀ s, (p.subnets s).length < fuel) ∧ AtRest h frame rest entries) ?_ ?_ ?_ ?_
  · obtain ⟨h', hloop, rest, entries', hrest, -, hr'⟩ := hrule
    obtain rfl := List.map_eq_nil_iff.mp hrest.symm
    exact ⟨h', entries', hloop, hr'⟩
  · intro links h hP
    obtain ⟨rest, entries, rfl, -, hr⟩ := hP
    exact hr.mem.lists.ring configlist _ hr.configlist
  · intro x links h hP
    obtain ⟨rest, entries, hrest, hbound, hr⟩ := hP
    obtain ⟨p, rest, rfl, rfl, rfl⟩ := List.map_eq_cons_iff.mp hrest.symm
    obtain ⟨h', entries', hround, hr'⟩ := freePeer_eq hr (hbound p (by simp))
    exact ⟨h', hround, rest, entries', rfl, fun q hq => hbound q (by simp [hq]), hr'⟩
  · exact ⟨ps, entries, rfl, hfuel, hr⟩
  · simpa using hlength

/-! Whole texts -/

/-- More rounds than any of the loops over these peers makes. -/
def rounds (peers : List PeerConfig) : Nat :=
  (peers.map fun p => 1 + p.network.length + p.network6.length + p.routeNetwork.length +
    p.routeNetwork6.length).sum

theorem bounded_of_rounds (hfuel : rounds (ps.map PeerNode.value) < fuel) :
    ps.length < fuel ∧ ∀ p ∈ ps, ∀ s, (p.subnets s).length < fuel := by
  suffices hle : ps.length ≤ rounds (ps.map PeerNode.value) ∧
      ∀ p ∈ ps, ∀ s, (p.subnets s).length ≤ rounds (ps.map PeerNode.value) from
    ⟨Nat.lt_of_le_of_lt hle.1 hfuel, fun p hp s => Nat.lt_of_le_of_lt (hle.2 p hp s) hfuel⟩
  clear hfuel
  induction ps with
  | nil => simp
  | cons p ps ih =>
    have hsum : rounds ((p :: ps).map PeerNode.value) =
        1 + (p.subnets .network).length + (p.subnets .network6).length +
          (p.subnets .routeNetwork).length + (p.subnets .routeNetwork6).length +
          rounds (ps.map PeerNode.value) := by
      simp [rounds, PeerNode.value]
    refine ⟨by rw [hsum, List.length_cons]; omega, fun q hq s => ?_⟩
    rcases List.mem_cons.mp hq with rfl | hq
    · cases s <;> omega
    · have hle := ih.2 q hq s
      omega

/-- The memory when the list of the configuration is initialised. -/
def startHeap : Heap where
  blocks := fun _ => none
  nodes := fun x =>
    if x = configlist then some ⟨some configlist, some configlist⟩
    else if x = doneUnknownWarnings then some ⟨none, none⟩
    else none
  fresh := 1

theorem atRest_startHeap :
    AtRest startHeap 0 [] fun x => if x = configlist then some [] else none := by
  have honly : ∀ {head : Link} {l : List Link},
      (if head = configlist then some [] else none) = some l → head = configlist ∧ l = [] := by
    intro head l hl
    split at hl
    · exact ⟨‹_›, (Option.some.inj hl).symm⟩
    · cases hl
  refine ⟨⟨.empty, by simp [peerCells], Nat.one_pos, fun x => ?_, fun head l hl => ?_, ?_⟩, by simp,
    by simp, ?_⟩
  · by_cases hx : x = configlist
    · simp [startHeap, Heap.links, hx]
    · by_cases hx' : x = doneUnknownWarnings
      · simp [startHeap, Heap.links, hx', doneUnknownWarnings, configlist]
      · simp [startHeap, Heap.links, hx, hx']
  · obtain ⟨rfl, rfl⟩ := honly hl
    exact ⟨List.isChain_pair.mpr ⟨rfl, rfl⟩, by simp⟩
  · rintro head head' x ⟨l, hl, -⟩ ⟨l', hl', -⟩
    exact (honly hl).1.trans (honly hl').1.symm
  · rintro ⟨head, l, hl, hx⟩
    obtain ⟨rfl, rfl⟩ := honly hl
    exact absurd (List.mem_singleton.mp hx) (by decide)

def twoSections : Bytes := ascii "[a]\nnet=1\n[b]\nowner=c"

/-- What a call does with the memory of the parser: the text is parsed unless it is the old
one or there is none, and the peers are given back at the end of a call that succeeds. -/
def memoryOfCall (libc : CLibrary) (fuel : Nat) (h : Heap) (c : Call) : Behaviour Heap := do
  let h ← match c.out.parsed, c.out.text with
    | some _, some text => parserParseConfig libc fuel h text
    | _, _ => returns h
  if c.out.retval = 1 then parserFreeConfig fuel h else returns h

/-- The peers in memory are those in the list of the client. -/
def Mirrors (h : Heap) (client : Client) : Prop :=
  ∃ (ps : List PeerNode) (entries : Entries), AtRest h 0 ps entries ∧
    ps.map PeerNode.value = client.peerConfig.map Prod.fst

variable {config : Config} {client parsed post : Client} {env : Env} {report : Report}
  {request : RequestConfig.RequestResult} {t : List Call}

theorem parse_mirrors {text : StringBuffer.StructString} (hmirrors : Mirrors h client)
    (hparsed : parsed = mainParseConfig libc config (requested client request) text)
    (hfuel : (parserLines (StringBuffer.content text)).length < fuel) :
    ∃ h', parserParseConfig libc fuel h (StringBuffer.content text) = returns h' ∧
      Mirrors h' parsed := by
  obtain ⟨ps, entries, hr, hvalues⟩ := hmirrors
  obtain ⟨h', new, entries', hparse, hnew, hr'⟩ := parserParseConfig_eq libc hr _ hfuel
  refine ⟨h', hparse, ps ++ new, entries', hr', ?_⟩
  rw [hparsed, List.map_append, hvalues, hnew, ← parsedPeers_fst (requested client request)]
  exact List.map_append.symm

theorem free_mirrors (hmirrors : Mirrors h parsed)
    (hfuel : rounds (parsed.peerConfig.map Prod.fst) < fuel) (hpost : post.peerConfig = []) :
    ∃ h', parserFreeConfig fuel h = returns h' ∧ Mirrors h' post := by
  obtain ⟨ps, entries, hr, hvalues⟩ := hmirrors
  obtain ⟨hlength, hlengths⟩ := bounded_of_rounds (hvalues ▸ hfuel)
  obtain ⟨h', entries', hfree, hr'⟩ := parserFreeConfig_eq hr hlength hlengths
  exact ⟨h', hfree, [], entries', hr', by simp [hpost]⟩

/-- What one call does with the memory is what it does with the list. -/
theorem memoryOfCall_mirrors (hout : Outcome libc config client env request report post) :
    ∃ bound, ∀ fuel, bound < fuel → ∀ h, Mirrors h client →
      ∃ h', memoryOfCall libc fuel h ⟨client, env, report, post⟩ = returns h' ∧ Mirrors h' post := by
  cases hout with
  | noText => exact ⟨0, fun fuel _ h hmirrors => ⟨h, rfl, hmirrors⟩⟩
  | unchanged => exact ⟨0, fun fuel _ h hmirrors => ⟨h, rfl, hmirrors⟩⟩
  | refused text parsed _ _ hparsed =>
    refine ⟨(parserLines (StringBuffer.content text)).length, fun fuel hfuel h hmirrors => ?_⟩
    obtain ⟨h', hparse, hmirrors'⟩ := parse_mirrors hmirrors hparsed hfuel
    exact ⟨h', by simp [memoryOfCall, hparse], hmirrors'⟩
  | interrupted text parsed writes _ _ hparsed =>
    refine ⟨(parserLines (StringBuffer.content text)).length, fun fuel hfuel h hmirrors => ?_⟩
    obtain ⟨h', hparse, ps, entries, hr, hvalues⟩ := parse_mirrors hmirrors hparsed hfuel
    exact ⟨h', by simp [memoryOfCall, hparse], ps, entries, hr, by rw [accepted_peerConfig, hvalues]⟩
  | applied text parsed _ _ hparsed =>
    refine ⟨(parserLines (StringBuffer.content text)).length +
      rounds (parsed.peerConfig.map Prod.fst), fun fuel hfuel h hmirrors => ?_⟩
    obtain ⟨h₁, hparse, hmirrors₁⟩ := parse_mirrors hmirrors hparsed (by omega : _ < fuel)
    have hempty : (mainFreeParsedInfo (accepted config env parsed text)).peerConfig = [] := rfl
    obtain ⟨h', hfree, hmirrors'⟩ := free_mirrors hmirrors₁ (by omega : _ < fuel) hempty
    exact ⟨h', by simp [memoryOfCall, hparse, hfree], hmirrors'⟩

theorem foldlM_snoc {σ α : Type} {f : σ → α → Behaviour σ} {l : List α} {a : α} {s s' : σ}
    (hloop : l.foldlM f s = returns s') : (l ++ [a]).foldlM f s = f s' a := by
  induction l generalizing s with
  | nil =>
    obtain rfl : s = s' := by simpa using hloop
    cases hf : f s a <;> simp [hf]
  | cons b l ih =>
    rw [List.foldlM_cons] at hloop
    obtain ⟨s₁, hb, hrest⟩ := bind_eq_returns.mp hloop
    rw [List.cons_append, List.foldlM_cons, hb, returns_bind, ih hrest]

end ChaosVpn.ParserMemory
