import ChaosVpn.PeerOwnership

/-! The parser in memory does to the peers it owns what the parser does to the peers. -/

namespace ChaosVpn.ParserMemory
open CStrings Blocks Behaviour LinkedNodes ChaosVpn.Lists ListRuns ListLoops Ownership ParserHeap
open Libc AddrMask
open PeerParser (PeerConfig ParserState headerName parserCheckConfigitem parserLines parsePort
  beginKey endKey tincDefaultPort peers)

def peerCells (ps : List PeerNode) : Multiset Cell := (ps.map PeerNode.cells).sum

/-- The memory while a text is parsed: the warnings, the peers, and what belongs to others. -/
structure Owned (h : Heap) (frame : Multiset Cell) (warnings : List StringNode)
    (ps : List PeerNode) (entries : Entries) : Prop where
  mem : Mem h (stringCells warnings + (peerCells ps + frame)) entries
  configlist : entries configlist = some (ps.map PeerNode.link)
  warned : entries doneUnknownWarnings = some (warnings.map StringNode.link)
  lists : ∀ p ∈ ps, p.Lists entries

variable {h : Heap} {frame cells : Multiset Cell} {entries : Entries} {fuel : Nat}
  {warnings : List StringNode} {ps front : List PeerNode} {p : PeerNode} {line : Bytes}

theorem peerCells_concat (front : List PeerNode) (p : PeerNode) :
    peerCells (front ++ [p]) = peerCells front + p.cells := by
  simp [peerCells]

/-- The cells from those of the last peer on. -/
theorem last_cells (warnings : List StringNode) (front : List PeerNode) (p : PeerNode)
    (frame : Multiset Cell) :
    stringCells warnings + (peerCells (front ++ [p]) + frame) =
      p.cells + (stringCells warnings + (peerCells front + frame)) := by
  rw [peerCells_concat]
  abel

theorem mem_sum_map {α : Type} {l : List α} {g : α → Multiset Cell} {a : α} {c : Cell} (ha : a ∈ l)
    (hc : c ∈ g a) : c ∈ (l.map g).sum := by
  induction l with
  | nil => cases ha
  | cons b l ih =>
    rw [List.map_cons, List.sum_cons, Multiset.mem_add]
    rcases List.mem_cons.mp ha with rfl | ha
    · exact .inl hc
    · exact .inr (ih ha)

theorem struct_mem {q : PeerNode} (hq : q ∈ ps) (cells : Multiset Cell) :
    (q.address, .peerConfig q.struct) ∈ peerCells ps + cells :=
  Multiset.mem_add.mpr (.inl (mem_sum_map hq (by simp [PeerNode.cells])))

/-- The structures of two peers are two blocks. -/
theorem address_ne (hm : Mem h (p.cells + cells) entries) {q : PeerNode}
    (hq : (q.address, .peerConfig q.struct) ∈ cells) : q.address ≠ p.address := by
  rw [p.cells_add] at hm
  have hrest : (q.address, Block.peerConfig q.struct) ∈
      textCells p.texts fields + (p.strings + ((p.node, .peerConfigList p.address) ::ₘ cells)) := by
    simp only [Multiset.mem_add, Multiset.mem_cons]
    exact .inr (.inr (.inr hq))
  exact hm.owns.ne hrest

theorem Owned.address_ne (ho : Owned h frame warnings (front ++ [p]) entries) {q : PeerNode}
    (hq : q ∈ front) : q.address ≠ p.address :=
  ParserMemory.address_ne (last_cells warnings front p frame ▸ ho.mem)
    (Multiset.mem_add.mpr (.inr (struct_mem hq frame)))

theorem Owned.address_pos (ho : Owned h frame warnings ps entries) (hp : p ∈ ps) :
    0 < p.address :=
  (ho.mem.bounded _ _ (Multiset.mem_add.mpr (.inr (struct_mem hp frame)))).1

/-- A change of the last peer leaves the rest as it is. -/
theorem Owned.turns (ho : Owned h frame warnings (front ++ [p]) entries) {new : PeerConfig}
    {b : Behaviour Heap}
    (hturns : Mem h (p.cells + (stringCells warnings + (peerCells front + frame))) entries →
      p.Lists entries → Turns p (stringCells warnings + (peerCells front + frame)) entries new b) :
    ∃ (h' : Heap) (p' : PeerNode) (entries' : Entries), b = returns h' ∧ p'.value = new ∧
      p'.address = p.address ∧ Owned h' frame warnings (front ++ [p']) entries' := by
  have hpos := ho.address_pos (p := p) (by simp)
  obtain ⟨h', p', entries', hb, hvalue, hnode, haddress, hm', hlists, hothers⟩ :=
    hturns (last_cells warnings front p frame ▸ ho.mem) (ho.lists p (by simp))
  refine ⟨h', p', entries', hb, hvalue, haddress, ?_, ?_, ?_, fun q hq => ?_⟩
  · rwa [last_cells]
  · rw [hothers ParserHeap.configlist (Nat.ne_of_lt hpos), ho.configlist]
    simp [PeerNode.link, hnode]
  · rw [hothers doneUnknownWarnings (Nat.ne_of_lt hpos), ho.warned]
  · rcases List.mem_append.mp hq with hq | hq
    · intro s
      rw [hothers _ (ho.address_ne hq), ho.lists q (by simp [hq])]
    · rw [List.mem_singleton.mp hq]
      exact hlists

/-! Unknown lines -/

theorem load_of_mem {b : Block} {a : Nat} (hm : Mem h cells entries) (hmem : (a, b) ∈ cells) :
    load h a = returns b := by
  simp [load, (hm.owns.mem_iff a b).mpr hmem]

theorem string_mem {i : StringNode} (hi : i ∈ warnings) (cells : Multiset Cell) :
    (i.node, .stringList i.text.address) ∈ stringCells warnings + cells ∧
      i.text.cell ∈ stringCells warnings + cells := by
  constructor
  · exact Multiset.mem_add.mpr (.inl (mem_sum_map hi (by simp [StringNode.cells])))
  · exact Multiset.mem_add.mpr (.inl (mem_sum_map hi (by simp [StringNode.cells])))

/-- An unknown label is remembered, if it is not already. -/
theorem parserWarnUnknown_eq (ho : Owned h frame warnings ps entries)
    (hfuel : warnings.length < fuel) (line : Bytes) :
    ∃ (h' : Heap) (warnings' : List StringNode) (entries' : Entries),
      parserWarnUnknown fuel h line = returns h' ∧ Owned h' frame warnings' ps entries' ∧
      warnings'.length ≤ warnings.length + 1 := by
  unfold parserWarnUnknown
  cases warnLabel line with
  | none => exact ⟨h, warnings, entries, rfl, ho, Nat.le_succ _⟩
  | some label =>
    dsimp only
    have hvisit : ∀ rest : List StringNode, (∀ i ∈ rest, i ∈ warnings) →
        ∃ known, visit (fun (_ : Unit) ptr => (do
          let si ← containerOf ptr
          let text ← loadText h (← loadStringList h si)
          return if strcasecmp label text then .inr () else .inl () : Behaviour (Unit ⊕ Unit))) (rest.map StringNode.link) () =
            returns known := by
      intro rest hrest
      induction rest with
      | nil => exact ⟨.inl (), rfl⟩
      | cons i rest ih =>
        obtain ⟨known, hknown⟩ := ih fun j hj => hrest j (by simp [hj])
        have hi := string_mem (hrest i (by simp)) (peerCells ps + frame)
        have hnode : loadStringList h i.node = returns i.text.address := by
          simp [loadStringList, load_of_mem ho.mem hi.1]
        have htext : loadText h i.text.address = returns i.text.contents := by
          simp [loadText, load_of_mem ho.mem hi.2]
        have hcontainer : containerOf (some i.link) = returns i.node := rfl
        simp only [List.map_cons, visit, hcontainer, returns_bind, hnode, htext, pure_eq_returns]
        by_cases hsame : strcasecmp label i.text.contents = true
        · exact ⟨.inr (), by simp [hsame]⟩
        · exact ⟨known, by simpa [hsame] using hknown⟩
    obtain ⟨known, hknown⟩ := hvisit warnings fun _ hi => hi
    rw [listForEach_eq (ho.mem.lists.ring _ _ ho.warned) (by simpa using hfuel), hknown, returns_bind]
    cases known with
    | inr _ => exact ⟨h, warnings, entries, rfl, ho, Nat.le_succ _⟩
    | inl _ =>
      obtain ⟨h', i, hadd, -, hm'⟩ := addStringlist_eq ho.mem ho.warned label
      refine ⟨h', warnings ++ [i], Function.update entries doneUnknownWarnings
        (some (warnings.map StringNode.link ++ [i.link])), hadd, ⟨?_, ?_, ?_, fun p hp s => ?_⟩, by simp⟩
      · have hcells : stringCells (warnings ++ [i]) = stringCells warnings + i.cells := by
          simp [stringCells]
        rw [hcells, add_comm _ i.cells, add_assoc]
        exact hm'
      · exact (Function.update_of_ne (by decide) ..).trans ho.configlist
      · simp
      · refine (Function.update_of_ne ?_ ..).trans (ho.lists p hp s)
        simp [doneUnknownWarnings]

/-! Lines of a section -/

/-- What a line does to the last peer, whatever kind of line it is. -/
def TurnsLast (frame : Multiset Cell) (warnings : List StringNode) (front : List PeerNode)
    (p : PeerNode) (new : PeerConfig × Bool) (b : Behaviour (Bool × Heap)) : Prop :=
  ∃ (h' : Heap) (p' : PeerNode) (warnings' : List StringNode) (entries' : Entries),
    b = returns (new.2, h') ∧ p'.value = new.1 ∧ p'.address = p.address ∧
      Owned h' frame warnings' (front ++ [p']) entries' ∧
      warnings'.length ≤ warnings.length + 1

theorem Owned.turnsLast (ho : Owned h frame warnings (front ++ [p]) entries) {new : PeerConfig}
    {keyMode : Bool} {b : Behaviour Heap}
    (hturns : Mem h (p.cells + (stringCells warnings + (peerCells front + frame))) entries →
      p.Lists entries → Turns p (stringCells warnings + (peerCells front + frame)) entries new b) :
    TurnsLast frame warnings front p (new, keyMode) (do return (keyMode, ← b)) := by
  obtain ⟨h', p', entries', rfl, hvalue, haddress, ho'⟩ := ho.turns hturns
  exact ⟨h', p', warnings, entries', rfl, hvalue, haddress, ho', Nat.le_succ _⟩

theorem parseKeyLine_eq (ho : Owned h frame warnings (front ++ [p]) entries)
    (hfuel : warnings.length < fuel) (line : Bytes) (keyMode : Bool) :
    TurnsLast frame warnings front p (PeerParser.parseKeyLine line p.value keyMode)
      (parseKeyLine fuel h p.address line keyMode) := by
  have hextend : ∀ t : Text, t.contents = (p.texts .key).contents ++ line ++ [lineFeed] →
      (p.setText .key t).value = PeerParser.parserExtendKey line p.value := by
    intro t ht
    simp [PeerNode.value, PeerNode.setText, PeerParser.parserExtendKey, ht]
  unfold parseKeyLine PeerParser.parseKeyLine
  by_cases hbegin : (parserCheckConfigitem line beginKey).isSome = true
  · rw [if_pos hbegin, if_pos hbegin]
    refine ho.turnsLast fun hm hlists => (parserBeginKey_replaces line).turns hm hlists fun t ht => ?_
    simp [PeerNode.value, PeerNode.setText, ht]
  · rw [if_neg hbegin, if_neg hbegin]
    by_cases hend : (parserCheckConfigitem line endKey).isSome = true
    · rw [if_pos hend, if_pos hend]
      exact ho.turnsLast fun hm hlists => (parserExtendKey_replaces line).turns hm hlists hextend
    · rw [if_neg hend, if_neg hend]
      cases keyMode with
      | true =>
        exact ho.turnsLast fun hm hlists => (parserExtendKey_replaces line).turns hm hlists hextend
      | false =>
        obtain ⟨h', warnings', entries', hwarn, ho', hlength⟩ := parserWarnUnknown_eq ho hfuel line
        exact ⟨h', p, warnings', entries', by simp [hwarn], rfl, rfl, ho', hlength⟩

/-- The first item whose keyword the line starts with, in memory and for the peers. -/
theorem findSome_configItems (libc : CLibrary) (line : Bytes) :
    Option.Rel (fun found store => ∃ change, Matches libc found.1 change ∧ store = change found.2)
      (configItems.findSome? fun (config, effect) =>
        (parserCheckConfigitem line config).map fun item => (effect, item))
      ((PeerParser.configItems libc).findSome? fun (config, store) =>
        (parserCheckConfigitem line config).map store) := by
  have hmatch := configItems_match libc
  generalize configItems = items, PeerParser.configItems libc = stores at hmatch ⊢
  induction hmatch with
  | nil => exact .none
  | @cons e e' _ _ he _ ih =>
    obtain ⟨effect, change⟩ := e
    obtain ⟨_, change'⟩ := e'
    obtain ⟨rfl, hmatches⟩ := he
    rw [List.findSome?_cons, List.findSome?_cons]
    cases hitem : parserCheckConfigitem line effect with
    | none => simpa [hitem] using ih
    | some item => simpa [hitem] using ⟨change', hmatches, rfl⟩

theorem parseItem_eq (libc : CLibrary) (ho : Owned h frame warnings (front ++ [p]) entries)
    (hfuel : warnings.length < fuel) (line : Bytes) (keyMode : Bool) :
    TurnsLast frame warnings front p (PeerParser.parseItem libc line p.value keyMode)
      (parseItem libc fuel h p.address line keyMode) := by
  have hfound := findSome_configItems libc line
  unfold parseItem PeerParser.parseItem
  dsimp only
  revert hfound
  generalize configItems.findSome? _ = found
  generalize (PeerParser.configItems libc).findSome? _ = store
  intro hfound
  cases hfound with
  | none => exact parseKeyLine_eq ho hfuel line keyMode
  | @some found _ hmatches =>
    obtain ⟨effect, item⟩ := found
    obtain ⟨change, hmatches, rfl⟩ := hmatches
    exact ho.turnsLast fun hm hlists => hmatches item hm hlists

/-! Headers -/

theorem unused_clear {x : Link} {hs : List Link} (hunused : ¬ Used entries x) (hx : x ∉ hs) :
    ¬ Used (clear entries hs (some [])) x := by
  rintro ⟨head, l, hl, hmem⟩
  unfold clear at hl
  split at hl
  · obtain rfl := Option.some.inj hl
    exact hx (List.mem_singleton.mp hmem ▸ ‹head ∈ hs›)
  · exact hunused ⟨head, l, hl, hmem⟩

theorem parserCreateConfig_eq (hm : Mem h cells entries) (name : Bytes) :
    ∃ (h' : Heap) (texts : Field → Text), parserCreateConfig h name = returns (h.fresh, h') ∧
      (∀ f, (texts f).contents = if f = .name then name else []) ∧
      Mem h' ((h.fresh, .peerConfig ⟨fun f => (texts f).address, defaults⟩) ::ₘ
        (textCells texts fields + cells)) (clear entries (heads h.fresh subnetLists) (some [])) := by
  obtain ⟨hm₁, hunused⟩ := hm.allocate (.peerConfig ⟨fun _ => 0, defaults⟩)
  obtain ⟨h₂, hinit, hm₂⟩ := initLists_eq hm₁ (by decide : subnetLists.Nodup) fun s _ => hunused _
  obtain ⟨h', texts, hset, hcontents, hm'⟩ :=
    setTexts_eq hm₂ (by decide : fields.Nodup) fun f => if f = .name then name else []
  have hall : ∀ f : Field, f ∈ fields := fun f => by cases f <;> decide
  refine ⟨h', texts, ?_, fun f => hcontents f (hall f), ?_⟩
  · simp only [parserCreateConfig, malloc, hinit, hset, returns_bind, pure_eq_returns]
  · simpa [hall] using hm'

theorem clear_of_notMem {x : Link} {hs : List Link} {value : Option (List Link)} (hx : x ∉ hs) :
    clear entries hs value x = entries x := if_neg hx

theorem static_notMem_heads {x : Link} (hx : ∀ s, x.2 ≠ .subnets s) (a : Nat) (ss : List Subnets) :
    x ∉ heads a ss := by
  rw [mem_heads]
  rintro ⟨s, -, rfl⟩
  exact hx s rfl

theorem cells_to_front (a b c : Cell) (texts cells : Multiset Cell) :
    a ::ₘ (texts + (b ::ₘ c ::ₘ cells)) = b ::ₘ c ::ₘ a ::ₘ (texts + cells) := by
  simp only [← Multiset.singleton_add]
  abel

theorem parserHeader_eq (ho : Owned h frame warnings ps entries) (name : Bytes) :
    ∃ (h' : Heap) (p : PeerNode) (entries' : Entries),
      parserHeader h name = returns (⟨some p.address, false⟩, h') ∧
      p.value = PeerParser.parserCreateConfig name ∧
      Owned h' frame warnings (ps ++ [p]) entries' := by
  obtain ⟨hm₁, -⟩ := ho.mem.allocate (.text (name.length + 1) name)
  obtain ⟨hm₂, hunused⟩ := hm₁.allocate (.peerConfigList 0)
  have hload : loadText _ h.fresh = returns name := loadText_eq (Multiset.cons_swap .. ▸ hm₂)
  obtain ⟨h₃, texts, hcreate, hcontents, hm₃⟩ := parserCreateConfig_eq hm₂ name
  generalize hi : (h.allocate (.text (name.length + 1) name)).fresh = i at *
  generalize hH₂ : (h.allocate (.text (name.length + 1) name)).allocate (.peerConfigList 0) = h₂ at *
  have hafter : h.fresh < h₂.fresh := by
    rw [← hH₂]
    exact Nat.lt_succ_of_lt (Nat.lt_succ_self _)
  rw [cells_to_front] at hm₃
  obtain ⟨h₄, hstore, hm₄⟩ := hm₃.store (.peerConfigList h₂.fresh) rfl
  have hconfiglist : configlist ∉ heads h₂.fresh subnetLists :=
    static_notMem_heads (by simp [configlist]) _ _
  have hwarnings : doneUnknownWarnings ∉ heads h₂.fresh subnetLists :=
    static_notMem_heads (by simp [doneUnknownWarnings]) _ _
  obtain ⟨h₅, hadd, hm₅⟩ := hm₄.listAddTail (x := (i, .list))
    (hm₄.link_live (by simp [Block.members]))
    (unused_clear (hunused .list) (static_notMem_heads (by simp) _ _))
    ((clear_of_notMem hconfiglist).trans ho.configlist)
  rw [Multiset.cons_swap] at hm₅
  obtain ⟨h', hfree, hm'⟩ := hm₅.free fun m hmember => absurd hmember List.not_mem_nil
  let p : PeerNode := ⟨i, h₂.fresh, texts, fun _ => [], defaults⟩
  refine ⟨h', p, Function.update (clear entries (heads h₂.fresh subnetLists) (some [])) configlist
    (some (ps.map PeerNode.link ++ [(i, .list)])), ?_, ?_, ?_, ?_, ?_, fun q hq s => ?_⟩
  · simp only [parserHeader, malloc, hi, hH₂, hload, hcreate, hstore, hadd, hfree, returns_bind, pure_eq_returns]
    rfl
  · simp [p, PeerNode.value, PeerParser.parserCreateConfig, hcontents, defaults]
  · have hp : p.cells = (i, .peerConfigList h₂.fresh) ::ₘ
        (h₂.fresh, .peerConfig ⟨fun f => (texts f).address, defaults⟩) ::ₘ textCells texts fields := by
      simp [p, PeerNode.cells, PeerNode.strings, PeerNode.struct, stringCells, subnetLists]
    rw [last_cells, hp, Multiset.cons_add, Multiset.cons_add]
    exact hm'
  · simp [p, PeerNode.link]
  · exact (Function.update_of_ne (by decide) ..).trans
      ((clear_of_notMem hwarnings).trans ho.warned)
  · refine (Function.update_of_ne (by simp [configlist]) ..).trans ?_
    rcases List.mem_append.mp hq with hq | hq
    · have hbound := (ho.mem.bounded _ _ (Multiset.mem_add.mpr (.inr (struct_mem hq frame)))).2
      rw [clear_of_notMem, ho.lists q hq s]
      rw [mem_heads]
      rintro ⟨s', -, heq⟩
      have haddress := congrArg Prod.fst heq
      dsimp only at haddress
      omega
    · rw [List.mem_singleton.mp hq]
      exact if_pos (mem_heads.mpr ⟨s, by cases s <;> decide, rfl⟩)

/-! Lines in their order -/

/-- The static variables and the peers made so far, against the state of the parser. -/
inductive Follows (old : List PeerNode) : List PeerNode → Statics → ParserState → Prop
  | start (keyMode : Bool) : Follows old old ⟨none, keyMode⟩ ⟨[], none, keyMode⟩
  | inSection (front : List PeerNode) (p : PeerNode) (keyMode : Bool) :
      Follows old (old ++ front ++ [p]) ⟨some p.address, keyMode⟩
        ⟨front.map PeerNode.value, some p.value, keyMode⟩

theorem Follows.peers {old : List PeerNode} {st : Statics} {state : ParserState}
    (hf : Follows old ps st state) :
    ∃ new : List PeerNode, ps = old ++ new ∧ new.map PeerNode.value = peers state := by
  cases hf with
  | start => exact ⟨[], by simp, rfl⟩
  | inSection front p => exact ⟨front ++ [p], by simp, by simp [PeerParser.peers]⟩

theorem parserParseLine_eq (libc : CLibrary) {old : List PeerNode} {st : Statics} {state : ParserState}
    (ho : Owned h frame warnings ps entries) (hf : Follows old ps st state)
    (hfuel : warnings.length < fuel) (token : Bytes) :
    ∃ (h' : Heap) (ps' : List PeerNode) (st' : Statics) (warnings' : List StringNode)
      (entries' : Entries), parserParseLine libc fuel st h token = returns (st', h') ∧
      Follows old ps' st' (PeerParser.parserParseLine libc state token) ∧
      Owned h' frame warnings' ps' entries' ∧ warnings'.length ≤ warnings.length + 1 := by
  unfold parserParseLine PeerParser.parserParseLine
  dsimp only
  cases hname : headerName (strTrim token) with
  | some name =>
    obtain ⟨h', p, entries', hheader, hvalue, ho'⟩ := parserHeader_eq ho name
    obtain ⟨new, hps, hnew⟩ := hf.peers
    have hf' : Follows old (ps ++ [p]) ⟨some p.address, false⟩
        ⟨new.map PeerNode.value, some p.value, false⟩ := hps ▸ .inSection new p false
    rw [hnew, hvalue] at hf'
    exact ⟨h', ps ++ [p], _, warnings, entries', hheader, hf', ho', Nat.le_succ _⟩
  | none =>
    cases hf with
    | start keyMode => exact ⟨h, ps, _, warnings, entries, rfl, .start keyMode, ho, Nat.le_succ _⟩
    | inSection front p keyMode =>
      obtain ⟨h', p', warnings', entries', hitem, hvalue, haddress, ho', hlength⟩ :=
        parseItem_eq libc ho hfuel (strTrim token) keyMode
      have hf' := @Follows.inSection old front p'
        (PeerParser.parseItem libc (strTrim token) p.value keyMode).2
      rw [haddress, hvalue] at hf'
      exact ⟨h', _, _, warnings', entries', by simp only [hitem]; rfl, hf', ho', hlength⟩

theorem parseLines_eq (libc : CLibrary) {old : List PeerNode} {st : Statics} {state : ParserState}
    (ho : Owned h frame warnings ps entries) (hf : Follows old ps st state) (tokens : List Bytes)
    (hfuel : warnings.length + tokens.length < fuel) :
    ∃ (h' : Heap) (ps' : List PeerNode) (st' : Statics) (warnings' : List StringNode)
      (entries' : Entries),
      tokens.foldlM (fun (st, h) token => parserParseLine libc fuel st h token) (st, h) =
        returns (st', h') ∧
      Follows old ps' st' (tokens.foldl (PeerParser.parserParseLine libc) state) ∧
      Owned h' frame warnings' ps' entries' ∧
      warnings'.length ≤ warnings.length + tokens.length := by
  induction tokens generalizing h ps st state warnings entries with
  | nil => exact ⟨h, ps, st, warnings, entries, rfl, hf, ho, Nat.le_refl _⟩
  | cons token tokens ih =>
    rw [List.length_cons] at hfuel
    obtain ⟨h₁, ps₁, st₁, warnings₁, entries₁, hline, hf₁, ho₁, hlength⟩ :=
      parserParseLine_eq libc ho hf (by omega : warnings.length < fuel) token
    obtain ⟨h', ps', st', warnings', entries', hloop, hf', ho', hlength'⟩ := ih ho₁ hf₁ (by omega)
    refine ⟨h', ps', st', warnings', entries', ?_, hf', ho', ?_⟩
    · rw [List.foldlM_cons]
      simp only [hline, returns_bind, hloop]
    · rw [List.length_cons]
      omega

end ChaosVpn.ParserMemory
