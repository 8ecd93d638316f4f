import Mathlib.Data.List.TakeWhile
import ChaosVpn.BackendText

/-! parse_config of chaosvpn-backend-encrypt-and-sign.pl. A text of the administrators
goes to the clients through it and build_text_config; here that way is compared with
the parser of the client on the same text. -/

namespace ChaosVpn.BackendParser
open CStrings Libc AddrMask PeerParser ParserLines TextLines BackendText

/-- A peer as its header leaves it. -/
def newPeer : BackendPeer where
  gatewayhost := []
  port := ascii "655"
  primary := ascii "0"
  hidden := ascii "0"
  silent := ascii "0"
  useTcpOnly := ascii "0"
  indirectData := ascii "0"
  networks := []
  networks6 := []
  pingtest := []
  pingtest6 := []
  ed25519PublicKey := []
  pubkey := []

structure PerlState where
  peers : List (Bytes × BackendPeer)
  currentPeer : Option Bytes
  peer : BackendPeer
  inKey : Bool

/-- `if ($current_peer)`, which is also false for the text `0`. -/
def currentTrue (st : PerlState) : Bool := (st.currentPeer.map perlTrue).getD false

/-- `$peers->{$id} = $peer` -/
def storePeer (peers : List (Bytes × BackendPeer)) (id : Bytes) (peer : BackendPeer) :
    List (Bytes × BackendPeer) :=
  if peers.any fun q => q.1 == id then peers.map fun q => if q.1 == id then (id, peer) else q
  else peers ++ [(id, peer)]

/-- The open peer goes into the hash. -/
def anchorPeer (st : PerlState) : List (Bytes × BackendPeer) :=
  if currentTrue st then storePeer st.peers (st.currentPeer.getD []) st.peer else st.peers

/-- `s/^\s+//; s/\#.*$//; s/\s+$//` -/
def perlTrim (line : Bytes) : Bytes :=
  (((strSkipSpaces line).takeWhile (· ≠ CStrings.hash)).reverse.dropWhile isSpace).reverse

/-- `/^keyword\s*=\s*(.*)$/i` -/
def perlItem (keyword line : Bytes) : Option Bytes :=
  if StartsWith keyword line then
    match strSkipSpaces (line.drop keyword.length) with
    | 61 :: value => some (strSkipSpaces value)
    | _ => none
  else none

/-- The items in the order in which they are tried. What build_text_config does not write
is matched and left out of the peer. -/
def perlItems : List (Bytes × (Bytes → BackendPeer → BackendPeer)) :=
  [(ascii "gatewayhost", fun v p => { p with gatewayhost := v }),
   (ascii "primary", fun v p => { p with primary := v }),
   (ascii "owner", fun _ p => p),
   (ascii "use-tcp-only", fun v p => { p with useTcpOnly := v }),
   (ascii "network", fun v p => { p with networks := p.networks ++ [v] }),
   (ascii "network6", fun v p => { p with networks6 := p.networks6 ++ [v] }),
   (ascii "hidden", fun v p => { p with hidden := v }),
   (ascii "silent", fun v p => { p with silent := v }),
   (ascii "port", fun v p => { p with port := v }),
   (ascii "indirectdata", fun v p => { p with indirectData := v }),
   (ascii "ed25519publickey", fun v p => { p with ed25519PublicKey := v }),
   (ascii "pingtest", fun v p => { p with pingtest := v }),
   (ascii "pingtest6", fun v p => { p with pingtest6 := v }),
   (ascii "dn42-as", fun _ p => p),
   (ascii "dn42-min-length4", fun _ p => p),
   (ascii "dn42-max-length4", fun _ p => p),
   (ascii "dn42-min-length6", fun _ p => p),
   (ascii "dn42-max-length6", fun _ p => p)]

/-- The first item that matches. -/
def perlFind (line : Bytes) : Option (BackendPeer → BackendPeer) :=
  perlItems.findSome? fun (keyword, store) => (perlItem keyword line).map store

def perlPeerLine (line : Bytes) (peer : BackendPeer) (inKey : Bool) : BackendPeer × Bool :=
  if inKey then
    ({ peer with pubkey := peer.pubkey ++ line ++ [lineFeed] }, !(endKey.isPrefixOf line))
  else
    match perlFind line with
    | some store => (store peer, false)
    | none =>
      if beginKey.isPrefixOf line then ({ peer with pubkey := line ++ [lineFeed] }, true)
      else (peer, false)

/-- `$current_peer = undef unless ($current_peer =~ /^[a-z0-9_\-]+$/i)` -/
def openPeer (name : Bytes) : Option Bytes :=
  if !name.isEmpty && name.all isNameByte then some name else none

/-- `/^\[(.*?)\]$/` is the header of the client. -/
def perlLine (st : PerlState) (text : Bytes) : PerlState :=
  let line := perlTrim text
  match headerName line with
  | some name =>
    { peers := anchorPeer st
      currentPeer := openPeer name
      peer := newPeer
      inKey := false }
  | none =>
    if currentTrue st then
      { st with
        peer := (perlPeerLine line st.peer st.inKey).1
        inKey := (perlPeerLine line st.peer st.inKey).2 }
    else st

/-- `split(/\n/, $answer)`, which drops empty texts at the end. -/
def perlSplit (answer : Bytes) : List Bytes :=
  ((answer.splitOn lineFeed).reverse.dropWhile List.isEmpty).reverse

def parseConfig (answer : Bytes) : List (Bytes × BackendPeer) :=
  anchorPeer ((perlSplit answer).foldl perlLine ⟨[], none, newPeer, false⟩)

/-! Texts of the administrators -/

structure AdminLine where
  keyword : Bytes
  value : Bytes

structure AdminSection where
  name : Bytes
  lines : List AdminLine

/-- A line of this form is neither a header nor the start of a key. -/
structure AdminLine.WellFormed (l : AdminLine) : Prop where
  keyword : PlainText l.keyword
  keyword_bytes : ∀ c ∈ l.keyword, c ≠ 61 ∧ c ≠ CStrings.hash
  keyword_bracket : l.keyword.head? ≠ some 91
  keyword_key : ¬ beginKey <+: l.keyword
  value : PlainText l.value
  value_comment : ∀ c ∈ l.value, c ≠ CStrings.hash

structure AdminSection.WellFormed (s : AdminSection) : Prop where
  name_bytes : ∀ c ∈ s.name, isNameByte c = true
  lines : ∀ l ∈ s.lines, l.WellFormed

def AdminLine.text (l : AdminLine) : Bytes := l.keyword ++ ascii "=" ++ l.value

def AdminSection.texts (s : AdminSection) : List Bytes :=
  (ascii "[" ++ s.name ++ ascii "]") :: s.lines.map AdminLine.text

def adminText (sections : List AdminSection) : Bytes :=
  (sections.flatMap AdminSection.texts).flatMap (· ++ [lineFeed])

/-- The lower case form of a keyword, which the tables of both parsers have. -/
def AdminLine.key (l : AdminLine) : Bytes := l.keyword.map toLower

/-- The values of the lines of a keyword. -/
def AdminSection.values (s : AdminSection) (keyword : Bytes) : List Bytes :=
  (s.lines.filter fun l => l.key == keyword).map AdminLine.value

def AdminSection.lastValue (s : AdminSection) (keyword : Bytes) : Bytes :=
  (s.values keyword).getLast?.getD []

/-! Lines `keyword=value` -/

theorem toLower_ne_equal {c : UInt8} (h : c ≠ 61) : toLower c ≠ 61 := by
  have hbytes : ∀ n < 256, UInt8.ofNat n ≠ 61 → toLower (UInt8.ofNat n) ≠ 61 := by
    decide +kernel
  have hc := hbytes c.toNat c.toNat_lt
  rw [UInt8.ofNat_toNat] at hc
  exact hc h

theorem strSkipSpaces_append {k : Bytes} (hne : k ≠ [])
    (hstop : ∀ c, k.getLast? = some c → isSpace c = false) (rest : Bytes) :
    ∃ c cs, strSkipSpaces (k ++ rest) = c :: cs ∧ c ∈ k := by
  have hlast := hstop (k.getLast hne) (List.getLast?_eq_some_getLast hne)
  have hskip : k.dropWhile isSpace ≠ [] := by
    intro hnil
    have hspace := List.dropWhile_eq_nil_iff.mp hnil _ (List.getLast_mem hne)
    rw [hspace] at hlast
    cases hlast
  obtain ⟨c, cs, hcs⟩ := List.exists_cons_of_ne_nil hskip
  refine ⟨c, cs ++ rest, ?_, (List.dropWhile_sublist isSpace).subset (hcs ▸ List.mem_cons_self)⟩
  rw [strSkipSpaces, List.dropWhile_append, hcs]
  rfl

theorem perlItem_none {keyword line : Bytes} {c : UInt8} {cs : Bytes}
    (hskip : strSkipSpaces (line.drop keyword.length) = c :: cs) (hc : c ≠ 61) :
    perlItem keyword line = none := by
  rw [perlItem, hskip]
  split
  · split
    · rename_i heq
      exact absurd (List.cons.inj heq).1 hc
    · rfl
  · rfl

theorem perlItem_cons (a c : UInt8) (name line : Bytes) :
    perlItem (a :: name) (c :: line) =
      if toLower a = toLower c then perlItem name line else none := by
  have hiff : StartsWith (a :: name) (c :: line) ↔
      toLower a = toLower c ∧ StartsWith name line := by
    simp [StartsWith, List.cons_prefix_cons]
  rw [perlItem, perlItem]
  by_cases h : toLower a = toLower c
  · by_cases hrest : StartsWith name line
    · rw [if_pos (hiff.mpr ⟨h, hrest⟩), if_pos h, if_pos hrest]
      rfl
    · rw [if_neg fun hstarts => hrest (hiff.mp hstarts).2, if_pos h, if_neg hrest]
  · rw [if_neg fun hstarts => h (hiff.mp hstarts).1, if_neg h]

theorem perlItem_text {name keyword value : Bytes} (hname : ∀ c ∈ name, c ≠ 61)
    (hkeyword : ∀ c ∈ keyword, c ≠ 61) (hstop : ∀ c, keyword.getLast? = some c → isSpace c = false)
    (hvalue : Trimmed value) :
    perlItem name (keyword ++ 61 :: value) =
      if keyword.map toLower = name.map toLower then some value else none := by
  induction name generalizing keyword with
  | nil =>
    cases keyword with
    | nil => simp [perlItem, StartsWith, strSkipSpaces, isSpace, dropWhile_of_head hvalue.start]
    | cons k keyword =>
      obtain ⟨c, cs, hskip, hc⟩ :=
        strSkipSpaces_append (List.cons_ne_nil k keyword) hstop (61 :: value)
      have hnone : perlItem [] (k :: keyword ++ 61 :: value) = none :=
        perlItem_none hskip (hkeyword c hc)
      rw [hnone]
      rfl
  | cons a name ih =>
    cases keyword with
    | nil =>
      have hequal : ¬ toLower a = toLower 61 := toLower_ne_equal (hname a (by simp))
      rw [List.nil_append, perlItem_cons, if_neg hequal]
      rfl
    | cons c keyword =>
      have hrest : ∀ b, keyword.getLast? = some b → isSpace b = false := by
        intro b hb
        exact hstop b (by rw [List.getLast?_cons, hb]; rfl)
      rw [List.cons_append, perlItem_cons, ih (fun b hb => hname b (by simp [hb]))
        (fun b hb => hkeyword b (by simp [hb])) hrest]
      by_cases h : toLower a = toLower c
      · simp [h]
      · have hne : ¬ toLower c = toLower a := fun heq => h heq.symm
        simp [h, hne]

variable {libc : CLibrary}

theorem AdminLine.text_eq (l : AdminLine) : l.text = l.keyword ++ 61 :: l.value := by
  rw [AdminLine.text, List.append_assoc]
  rfl

theorem not_mem_key {l : AdminLine} (h : l.WellFormed) : 61 ∉ l.key := by
  intro hmem
  obtain ⟨c, hc, heq⟩ := List.mem_map.mp hmem
  exact toLower_ne_equal (h.keyword_bytes c hc).1 heq

theorem AdminLine.trimmed_text {l : AdminLine} (h : l.WellFormed) : Trimmed l.text := by
  have hequal : Trimmed (ascii "=") := KeywordText.trimmed ⟨by decide, by decide⟩
  have hvalue : Trimmed (ascii "=" ++ l.value) := hequal.append h.value.trimmed (by decide)
  rw [AdminLine.text, List.append_assoc]
  by_cases hne : l.keyword = []
  · rwa [hne, List.nil_append]
  · exact h.keyword.trimmed.append hvalue hne

theorem AdminLine.head_text {l : AdminLine} (h : l.WellFormed) : l.text.head? ≠ some 91 := by
  rw [AdminLine.text_eq]
  cases hkeyword : l.keyword with
  | nil => simp
  | cons k ks => simpa [hkeyword] using h.keyword_bracket

theorem AdminLine.not_comment {l : AdminLine} (h : l.WellFormed) :
    ∀ c ∈ l.text, c ≠ CStrings.hash := by
  intro c hc
  rw [AdminLine.text_eq] at hc
  rcases List.mem_append.mp hc with hc | hc
  · exact (h.keyword_bytes c hc).2
  · rcases List.mem_cons.mp hc with rfl | hc
    · decide
    · exact h.value_comment c hc

/-- The item that the client takes for a line: the one of its keyword. -/
def ClientItem (libc : CLibrary) (l : AdminLine) : Option (PeerConfig → PeerConfig) → Prop
  | some store =>
    ∃ entry ∈ configItems libc, entry.1 = l.key ++ ascii "=" ∧ store = entry.2 l.value
  | none => ∀ entry ∈ configItems libc, entry.1 ≠ l.key ++ ascii "="

/-- The item that the backend takes for it. -/
def BackendItem (l : AdminLine) : Option (BackendPeer → BackendPeer) → Prop
  | some store => ∃ entry ∈ perlItems, entry.1 = l.key ∧ store = entry.2 l.value
  | none => ∀ entry ∈ perlItems, entry.1 ≠ l.key

theorem findItem_text {l : AdminLine} (h : l.WellFormed) :
    ClientItem libc l (findItem libc l.text) := by
  have hkeywords : ∀ keyword ∈ itemKeywords, ∃ name, keyword = name ++ ascii "=" ∧ 61 ∉ name ∧
      keyword.map toLower = keyword := by
    intro keyword hkeyword
    have hshape : ∀ keyword ∈ itemKeywords, keyword = keyword.dropLast ++ ascii "=" ∧
        61 ∉ keyword.dropLast ∧ keyword.map toLower = keyword := by
      decide +kernel
    exact ⟨_, hshape keyword hkeyword⟩
  have hkey : ∀ entry ∈ configItems libc,
      StartsWith entry.1 l.text ↔ entry.1 = l.key ++ ascii "=" := by
    intro entry hentry
    obtain ⟨name, hentryName, hname, hlower⟩ :=
      hkeywords entry.1 (keywords_configItems libc ▸ List.mem_map_of_mem hentry)
    have hline : l.text.map toLower = l.key ++ 61 :: l.value.map toLower := by
      rw [AdminLine.text_eq, List.map_append]
      rfl
    rw [StartsWith, hlower, hline]
    constructor
    · rintro ⟨rest, hrest⟩
      rw [hentryName, List.append_assoc] at hrest
      have hline : strSplitAt 61 (l.key ++ 61 :: l.value.map toLower) =
          (l.key, some (l.value.map toLower)) := strSplitAt_some.mpr ⟨rfl, not_mem_key h⟩
      have hitem : strSplitAt 61 (name ++ (ascii "=" ++ rest)) = (name, some rest) :=
        strSplitAt_some.mpr ⟨rfl, hname⟩
      rw [← hrest, hitem] at hline
      rw [hentryName, (Prod.mk.inj hline).1]
    · intro heq
      rw [heq]
      exact ⟨l.value.map toLower, by rw [List.append_assoc]; rfl⟩
  have hdrop : l.text.drop (l.key ++ ascii "=").length = l.value := by
    rw [AdminLine.text]
    exact List.drop_left' (by simp [AdminLine.key])
  cases hfound : findItem libc l.text with
  | some store =>
    obtain ⟨entry, hentry, hstore⟩ := List.exists_of_findSome?_eq_some hfound
    change (parserCheckConfigitem l.text entry.1).map entry.2 = some store at hstore
    rw [parserCheckConfigitem_eq] at hstore
    by_cases hstarts : StartsWith entry.1 l.text
    · have hname := (hkey entry hentry).mp hstarts
      rw [if_pos hstarts, hname, hdrop] at hstore
      exact ⟨entry, hentry, hname, (Option.some.inj hstore).symm⟩
    · rw [if_neg hstarts] at hstore
      cases hstore
  | none =>
    intro entry hentry hname
    have hentryNone := List.findSome?_eq_none_iff.mp hfound entry hentry
    change (parserCheckConfigitem l.text entry.1).map entry.2 = none at hentryNone
    rw [parserCheckConfigitem_eq, if_pos ((hkey entry hentry).mpr hname)] at hentryNone
    cases hentryNone

theorem perlFind_text {l : AdminLine} (h : l.WellFormed) : BackendItem l (perlFind l.text) := by
  have hitem : ∀ entry ∈ perlItems, perlItem entry.1 l.text =
      if l.key = entry.1 then some l.value else none := by
    intro entry hentry
    have hshape : ∀ name ∈ perlItems.map Prod.fst, (∀ c ∈ name, c ≠ 61) ∧
        name.map toLower = name := by
      decide +kernel
    obtain ⟨hbytes, hlower⟩ := hshape entry.1 (List.mem_map_of_mem hentry)
    rw [AdminLine.text_eq, perlItem_text hbytes (fun c hc => (h.keyword_bytes c hc).1)
      h.keyword.trimmed.stop h.value.trimmed, hlower]
    rfl
  cases hfound : perlFind l.text with
  | some store =>
    obtain ⟨entry, hentry, hstore⟩ := List.exists_of_findSome?_eq_some hfound
    change (perlItem entry.1 l.text).map entry.2 = some store at hstore
    rw [hitem entry hentry] at hstore
    by_cases hname : l.key = entry.1
    · rw [if_pos hname] at hstore
      exact ⟨entry, hentry, hname.symm, (Option.some.inj hstore).symm⟩
    · rw [if_neg hname] at hstore
      cases hstore
  | none =>
    intro entry hentry hname
    have hentryNone := List.findSome?_eq_none_iff.mp hfound entry hentry
    change (perlItem entry.1 l.text).map entry.2 = none at hentryNone
    rw [hitem entry hentry, if_pos hname.symm] at hentryNone
    cases hentryNone

/-! What a section says about its peer -/

def AdminSection.add (s : AdminSection) (l : AdminLine) : AdminSection := ⟨s.name, s.lines ++ [l]⟩

theorem values_add (s : AdminSection) (l : AdminLine) (keyword : Bytes) :
    (s.add l).values keyword = s.values keyword ++ if l.key = keyword then [l.value] else [] := by
  by_cases h : l.key = keyword <;> simp [AdminSection.values, AdminSection.add, h]

theorem lastValue_add (s : AdminSection) (l : AdminLine) (keyword : Bytes) :
    (s.add l).lastValue keyword = if l.key = keyword then l.value else s.lastValue keyword := by
  rw [AdminSection.lastValue, values_add]
  by_cases h : l.key = keyword
  · simp [h]
  · simp [h, AdminSection.lastValue]

/-- The peer of a section, its flags being read by `flag`. -/
structure Shows (libc : CLibrary) (flag : Bytes → Bool) (s : AdminSection) (p : PeerConfig) :
    Prop where
  name : p.name = s.name
  hidden : p.hidden = flag (s.lastValue (ascii "hidden"))
  silent : p.silent = flag (s.lastValue (ascii "silent"))
  useTcpOnly : p.useTcpOnly = flag (s.lastValue (ascii "use-tcp-only"))
  indirectdata : p.indirectdata = flag (s.lastValue (ascii "indirectdata"))
  primary : p.primary = flag (s.lastValue (ascii "primary"))
  network : p.network = verifiedSubnets libc .inet (s.values (ascii "network"))
  network6 : p.network6 = verifiedSubnets libc .inet6 (s.values (ascii "network6"))

def clientFlag (v : Bytes) : Bool := strIsTrue v false

/-- The effect of a line on the fields that are compared. -/
structure LineEffect (libc : CLibrary) (flag : Bytes → Bool) (l : AdminLine) (p p' : PeerConfig) :
    Prop where
  name : p'.name = p.name
  hidden : p'.hidden = if l.key = ascii "hidden" then flag l.value else p.hidden
  silent : p'.silent = if l.key = ascii "silent" then flag l.value else p.silent
  useTcpOnly : p'.useTcpOnly = if l.key = ascii "use-tcp-only" then flag l.value else p.useTcpOnly
  indirectdata : p'.indirectdata =
    if l.key = ascii "indirectdata" then flag l.value else p.indirectdata
  primary : p'.primary = if l.key = ascii "primary" then flag l.value else p.primary
  network : p'.network =
    if l.key = ascii "network" then addSubnet libc .inet p.network l.value else p.network
  network6 : p'.network6 =
    if l.key = ascii "network6" then addSubnet libc .inet6 p.network6 l.value else p.network6

theorem lineEffect_item {entry : Bytes × (Bytes → PeerConfig → PeerConfig)}
    (hentry : entry ∈ configItems libc) {l : AdminLine} (hkey : entry.1 = l.key ++ ascii "=")
    (p : PeerConfig) : LineEffect libc clientFlag l p (entry.2 l.value p) := by
  have hname : l.key = entry.1.dropLast := by
    rw [hkey]
    exact List.dropLast_concat.symm
  clear hkey
  revert entry
  simp only [configItems, List.forall_mem_cons, List.not_mem_nil, false_imp_iff, implies_true,
    and_true]
  and_intros
  all_goals
    intro hname
    constructor
    · rfl
    all_goals
      rw [hname]
      first
      | refine (if_neg ?_).symm; decide
      | refine (if_pos ?_).symm; decide

/-- The keywords of the flags that are compared. -/
def flagKeywords : List Bytes :=
  [ascii "hidden", ascii "silent", ascii "use-tcp-only", ascii "indirectdata", ascii "primary"]

def networkKeywords : List Bytes := [ascii "network", ascii "network6"]

theorem lineEffect_refl {flag : Bytes → Bool} {l : AdminLine} {p p' : PeerConfig}
    (hflags : ∀ keyword ∈ flagKeywords, l.key ≠ keyword)
    (hnetworks : ∀ keyword ∈ networkKeywords, l.key ≠ keyword) (key : Bytes)
    (hp : p' = { p with key }) : LineEffect libc flag l p p' := by
  simp only [flagKeywords, networkKeywords, List.forall_mem_cons] at hflags hnetworks
  obtain ⟨hhidden, hsilent, huseTcpOnly, hindirectdata, hprimary, -⟩ := hflags
  obtain ⟨hnetwork, hnetwork6, -⟩ := hnetworks
  subst hp
  exact ⟨rfl, (if_neg hhidden).symm, (if_neg hsilent).symm, (if_neg huseTcpOnly).symm,
    (if_neg hindirectdata).symm, (if_neg hprimary).symm, (if_neg hnetwork).symm,
    (if_neg hnetwork6).symm⟩

theorem lineEffect_none {l : AdminLine}
    (hkey : ∀ entry ∈ configItems libc, entry.1 ≠ l.key ++ ascii "=") (p : PeerConfig)
    (key : Bytes) : LineEffect libc clientFlag l p { p with key } := by
  have hname : ∀ keyword, keyword ++ ascii "=" ∈ itemKeywords → l.key ≠ keyword := by
    rintro _ hkeyword rfl
    rw [← keywords_configItems libc] at hkeyword
    obtain ⟨entry, hentry, hentryKey⟩ := List.mem_map.mp hkeyword
    exact hkey entry hentry hentryKey
  have hflags : ∀ keyword ∈ flagKeywords, keyword ++ ascii "=" ∈ itemKeywords := by decide +kernel
  have hnetworks : ∀ keyword ∈ networkKeywords, keyword ++ ascii "=" ∈ itemKeywords := by
    decide +kernel
  exact lineEffect_refl (fun k hk => hname k (hflags k hk)) (fun k hk => hname k (hnetworks k hk))
    key rfl

theorem lineEffect_parseItem {l : AdminLine} (h : l.WellFormed) (p : PeerConfig) (keyMode : Bool) :
    LineEffect libc clientFlag l p (parseItem libc l.text p keyMode).1 := by
  have hitem : ClientItem libc l (findItem libc l.text) := findItem_text h
  rw [parseItem_eq]
  cases hfound : findItem libc l.text with
  | some store =>
    rw [hfound] at hitem
    obtain ⟨entry, hentry, hkey, rfl⟩ := hitem
    exact lineEffect_item hentry hkey p
  | none =>
    rw [hfound] at hitem
    change LineEffect libc clientFlag l p (parseKeyLine l.text p keyMode).1
    rw [parseKeyLine_eq]
    split
    · exact lineEffect_none hitem p _
    · split
      · exact lineEffect_none hitem p _
      · split
        · exact lineEffect_none hitem p _
        · exact lineEffect_none hitem p p.key

theorem addSubnet_verified (family : Family) (values : List Bytes) (v : Bytes) :
    addSubnet libc family (verifiedSubnets libc family values) v =
      verifiedSubnets libc family (values ++ [v]) := by
  rw [addSubnet, verifiedSubnets, verifiedSubnets, List.filter_append, List.filter_singleton]
  cases addrmaskVerifySubnet libc v (some family) <;> simp

theorem Shows.add {flag : Bytes → Bool} {s : AdminSection} {p p' : PeerConfig}
    {l : AdminLine} (h : Shows libc flag s p) (heffect : LineEffect libc flag l p p') :
    Shows libc flag (s.add l) p' where
  name := heffect.name.trans h.name
  hidden := by rw [heffect.hidden, lastValue_add, h.hidden, apply_ite flag]
  silent := by rw [heffect.silent, lastValue_add, h.silent, apply_ite flag]
  useTcpOnly := by rw [heffect.useTcpOnly, lastValue_add, h.useTcpOnly, apply_ite flag]
  indirectdata := by rw [heffect.indirectdata, lastValue_add, h.indirectdata, apply_ite flag]
  primary := by rw [heffect.primary, lastValue_add, h.primary, apply_ite flag]
  network := by
    rw [heffect.network, values_add, h.network]
    split
    · exact addSubnet_verified _ _ _
    · rw [List.append_nil]
  network6 := by
    rw [heffect.network6, values_add, h.network6]
    split
    · exact addSubnet_verified _ _ _
    · rw [List.append_nil]

theorem shows_parserCreateConfig (name : Bytes) :
    Shows libc clientFlag ⟨name, []⟩ (parserCreateConfig name) := by
  constructor <;> rfl

/-- The lines of a section, read by the client. -/
theorem foldl_parserParseLine_texts (name : Bytes) {lines : List AdminLine}
    (hlines : ∀ l ∈ lines, l.WellFormed) (st : ParserState) :
    ∃ p keyMode, (AdminSection.texts ⟨name, lines⟩).foldl (parserParseLine libc) st =
      ⟨peers st, some p, keyMode⟩ ∧ Shows libc clientFlag ⟨name, lines⟩ p := by
  induction lines using List.reverseRecOn with
  | nil =>
    exact ⟨parserCreateConfig name, false, parserParseLine_brackets st name,
      shows_parserCreateConfig name⟩
  | append_singleton lines l ih =>
    obtain ⟨p, keyMode, hfold, hshows⟩ := ih fun k hk => hlines k (by simp [hk])
    have hline := hlines l (by simp)
    have htrim : strTrim l.text = l.text := strTrim_trimmed (AdminLine.trimmed_text hline)
    have hheader : headerName (strTrim l.text) = none := by
      rw [htrim]
      exact headerName_of_head (AdminLine.head_text hline)
    refine ⟨_, (parseItem libc l.text p keyMode).2, ?_,
      hshows.add (lineEffect_parseItem hline p keyMode)⟩
    have htexts : AdminSection.texts ⟨name, lines ++ [l]⟩ =
        AdminSection.texts ⟨name, lines⟩ ++ [l.text] := by
      simp [AdminSection.texts]
    rw [htexts, List.foldl_append, hfold, List.foldl_cons, List.foldl_nil,
      parserParseLine_item _ _ _ hheader, htrim]

/-- Every element of either list has one in the other to go with. -/
def Matched {α β : Type} (R : α → β → Prop) (as : List α) (bs : List β) : Prop :=
  (∀ a ∈ as, ∃ b ∈ bs, R a b) ∧ ∀ b ∈ bs, ∃ a ∈ as, R a b

theorem Matched.snoc {α β : Type} {R : α → β → Prop} {as : List α} {bs : List β} {a : α} {b : β}
    (h : Matched R as bs) (hab : R a b) : Matched R (as ++ [a]) (bs ++ [b]) := by
  refine ⟨fun a' ha' => ?_, fun b' hb' => ?_⟩
  · rcases List.mem_append.mp ha' with ha' | ha'
    · obtain ⟨b', hb', hR⟩ := h.1 a' ha'
      exact ⟨b', List.mem_append_left _ hb', hR⟩
    · exact ⟨b, by simp, List.mem_singleton.mp ha' ▸ hab⟩
  · rcases List.mem_append.mp hb' with hb' | hb'
    · obtain ⟨a', ha', hR⟩ := h.2 b' hb'
      exact ⟨a', List.mem_append_left _ ha', hR⟩
    · exact ⟨a, by simp, List.mem_singleton.mp hb' ▸ hab⟩

theorem plain_name {s : AdminSection} (h : s.WellFormed) : Plain s.name := by
  intro c hc
  obtain ⟨-, -, -, hzero⟩ := keywordByte_ne (Bool.or_eq_true_iff.mpr (.inl (h.name_bytes c hc)))
  refine ⟨hzero, ?_⟩
  rintro rfl
  exact absurd (h.name_bytes _ hc) (by decide)

theorem plain_texts {s : AdminSection} (h : s.WellFormed) :
    ∀ line ∈ s.texts, Plain line ∧ keepToken line = true := by
  intro line hline
  rcases List.mem_cons.mp hline with rfl | hline
  · exact ⟨((by decide : Plain (ascii "[")).append (plain_name h)).append (by decide), rfl⟩
  · obtain ⟨l, hl, rfl⟩ := List.mem_map.mp hline
    have hl := h.lines l hl
    have hkeyword : Plain l.keyword := hl.keyword.plain
    refine ⟨(hkeyword.append (by decide)).append hl.value.plain, ?_⟩
    have hne : l.text ≠ [] := by
      rw [AdminLine.text_eq]
      simp
    have hhash : l.text.head? ≠ some CStrings.hash := fun hhead =>
      AdminLine.not_comment hl _ (List.mem_of_mem_head? hhead) rfl
    simp [keepToken, hne, hhash]

theorem plain_sections {sections : List AdminSection} (h : ∀ s ∈ sections, s.WellFormed) :
    ∀ line ∈ sections.flatMap AdminSection.texts, Plain line ∧ keepToken line = true := by
  intro line hline
  obtain ⟨s, hs, hline⟩ := List.mem_flatMap.mp hline
  exact plain_texts (h s hs) line hline

theorem parserLines_adminText {sections : List AdminSection} (h : ∀ s ∈ sections, s.WellFormed) :
    parserLines (adminText sections) = sections.flatMap AdminSection.texts := by
  have hlines := plain_sections h
  have hzero : ∀ c ∈ adminText sections, c ≠ 0 := by
    intro c hc
    obtain ⟨line, hline, hc⟩ := List.mem_flatMap.mp hc
    rcases List.mem_append.mp hc with hc | hc
    · exact ((hlines line hline).1 c hc).1
    · rw [List.mem_singleton.mp hc]
      decide
  rw [parserLines_eq hzero, adminText, keptLines_lines rfl fun line hline =>
    (hlines line hline).1.not_mem]
  exact List.filter_eq_self.mpr fun line hline => (hlines line hline).2

variable (libc) in
/-- The text as the client parses it: one peer for each section. -/
theorem matched_parserParseConfig {sections : List AdminSection}
    (h : ∀ s ∈ sections, s.WellFormed) :
    Matched (Shows libc clientFlag) sections (parserParseConfig libc (adminText sections)) := by
  rw [parserParseConfig, parserLines_adminText h]
  induction sections using List.reverseRecOn with
  | nil => exact ⟨by simp, by simp [peers]⟩
  | append_singleton sections s ih =>
    have hmatched := ih fun s' hs' => h s' (by simp [hs'])
    obtain ⟨p, keyMode, hfold, hshows⟩ := foldl_parserParseLine_texts s.name
      (h s (by simp)).lines
      ((sections.flatMap AdminSection.texts).foldl (parserParseLine libc) ⟨[], none, false⟩)
    rw [List.flatMap_append, List.foldl_append, List.flatMap_singleton, hfold]
    exact hmatched.snoc hshows

/-! The same text in the backend -/

theorem printable_newPeer {name : Bytes} (h : ∀ c ∈ name, isNameByte c = true) :
    Printable name newPeer where
  id := plain_name (s := ⟨name, []⟩) ⟨h, by simp⟩
  gatewayhost := ⟨.nil, by simp [newPeer]⟩
  port := plainText_decimal 655
  networks := by simp [newPeer]
  networks6 := by simp [newPeer]
  pingtest := ⟨.nil, by simp [newPeer]⟩
  pingtest6 := ⟨.nil, by simp [newPeer]⟩
  ed25519PublicKey := ⟨.nil, by simp [newPeer]⟩
  pubkey := .inl rfl

/-- The effect of a line on the peer of the backend. -/
structure PerlEffect (libc : CLibrary) (name : Bytes) (l : AdminLine) (p p' : BackendPeer) :
    Prop where
  client : LineEffect libc perlTrue l (parsedPeer libc name p) (parsedPeer libc name p')
  printable : Printable name p → Printable name p'

theorem perlEffect_item {entry : Bytes × (Bytes → BackendPeer → BackendPeer)}
    (hentry : entry ∈ perlItems) {l : AdminLine} (hvalue : PlainText l.value)
    (hkey : entry.1 = l.key) (name : Bytes) (p : BackendPeer) :
    PerlEffect libc name l p (entry.2 l.value p) := by
  have hnetwork : verifiedSubnets libc .inet (p.networks ++ [l.value]) =
      addSubnet libc .inet (verifiedSubnets libc .inet p.networks) l.value :=
    (addSubnet_verified _ _ _).symm
  have hnetwork6 : verifiedSubnets libc .inet6 (p.networks6 ++ [l.value]) =
      addSubnet libc .inet6 (verifiedSubnets libc .inet6 p.networks6) l.value :=
    (addSubnet_verified _ _ _).symm
  have hnetworks : Printable name p → ∀ n ∈ p.networks ++ [l.value], PlainText n := fun h =>
    List.forall_mem_append.mpr ⟨h.networks, List.forall_mem_singleton.mpr hvalue⟩
  have hnetworks6 : Printable name p → ∀ n ∈ p.networks6 ++ [l.value], PlainText n := fun h =>
    List.forall_mem_append.mpr ⟨h.networks6, List.forall_mem_singleton.mpr hvalue⟩
  simp only [perlItems, List.mem_cons, List.not_mem_nil, or_false] at hentry
  rcases hentry with rfl | rfl | rfl | rfl | rfl | rfl | rfl | rfl | rfl | rfl | rfl | rfl | rfl |
    rfl | rfl | rfl | rfl | rfl
  all_goals
    dsimp only at hkey
    refine ⟨?_, fun h => ?_⟩
    · constructor
      · rfl
      all_goals
        rw [← hkey]
        first
        | refine (if_neg ?_).symm; decide
        | refine Eq.trans ?_ (if_pos ?_).symm
          · first
            | rfl
            | exact hnetwork
            | exact hnetwork6
          · decide
    · constructor
      all_goals
        first
        | exact hvalue
        | exact hnetworks h
        | exact hnetworks6 h
        | exact h.id
        | exact h.gatewayhost
        | exact h.port
        | exact h.networks
        | exact h.networks6
        | exact h.pingtest
        | exact h.pingtest6
        | exact h.ed25519PublicKey
        | exact h.pubkey

theorem perlEffect_none {l : AdminLine} (hkey : ∀ entry ∈ perlItems, entry.1 ≠ l.key)
    (name : Bytes) (p : BackendPeer) : PerlEffect libc name l p p := by
  have hname : ∀ keyword ∈ perlItems.map Prod.fst, l.key ≠ keyword := by
    intro keyword hkeyword heq
    obtain ⟨entry, hentry, rfl⟩ := List.mem_map.mp hkeyword
    exact hkey entry hentry heq.symm
  have hflags : ∀ keyword ∈ flagKeywords, keyword ∈ perlItems.map Prod.fst := by decide +kernel
  have hnetworks : ∀ keyword ∈ networkKeywords, keyword ∈ perlItems.map Prod.fst := by
    decide +kernel
  exact ⟨lineEffect_refl (fun k hk => hname k (hflags k hk)) (fun k hk => hname k (hnetworks k hk))
    (parsedPeer libc name p).key rfl, id⟩

theorem prefix_of_prefix_append {start k v : Bytes} {c : UInt8} (hc : c ∉ start)
    (h : start <+: k ++ c :: v) : start <+: k := by
  rcases Nat.le_total start.length k.length with hle | hlt
  · exact List.prefix_of_prefix_length_le h (List.prefix_append k _) hle
  · have hk : k <+: start := List.prefix_of_prefix_length_le (List.prefix_append k _) h hlt
    obtain ⟨rest, rfl⟩ := hk
    rw [List.prefix_append_right_inj] at h
    cases rest with
    | nil => simp
    | cons d rest =>
      obtain ⟨rfl, -⟩ := List.cons_prefix_cons.mp h
      exact absurd (by simp) hc

variable (libc) in
theorem perlEffect_peerLine {l : AdminLine} (h : l.WellFormed) (name : Bytes) (p : BackendPeer) :
    ∃ p', perlPeerLine l.text p false = (p', false) ∧ PerlEffect libc name l p p' := by
  have hitem := perlFind_text h
  have hbegin : beginKey.isPrefixOf l.text = false := by
    rw [Bool.eq_false_iff, Ne, List.isPrefixOf_iff_prefix, AdminLine.text_eq]
    exact fun hprefix => h.keyword_key (prefix_of_prefix_append (by decide) hprefix)
  unfold perlPeerLine
  cases hfound : perlFind l.text with
  | some store =>
    rw [hfound] at hitem
    obtain ⟨entry, hentry, hkey, rfl⟩ := hitem
    exact ⟨_, rfl, perlEffect_item hentry h.value hkey name p⟩
  | none =>
    rw [hfound] at hitem
    refine ⟨p, ?_, perlEffect_none hitem name p⟩
    simp [hbegin]

theorem perlTrim_trimmed {line : Bytes} (h : Trimmed line) (hhash : ∀ c ∈ line, c ≠ CStrings.hash) :
    perlTrim line = line := by
  have hcomment : line.takeWhile (· ≠ CStrings.hash) = line :=
    takeWhile_all fun c hc => decide_eq_true (hhash c hc)
  rw [perlTrim, strSkipSpaces, dropWhile_of_head h.start, hcomment, dropWhile_of_head,
    List.reverse_reverse]
  simpa using h.stop

theorem currentTrue_openPeer {name : Bytes} (h : ∀ c ∈ name, isNameByte c = true)
    (peers : List (Bytes × BackendPeer)) (peer : BackendPeer) (inKey : Bool) :
    currentTrue ⟨peers, openPeer name, peer, inKey⟩ = perlTrue name := by
  have hall : name.all isNameByte = true := List.all_eq_true.mpr h
  cases name with
  | nil => rfl
  | cons c cs => simp [currentTrue, openPeer, hall]

theorem anchorPeer_openPeer {name : Bytes} (h : ∀ c ∈ name, isNameByte c = true)
    (peers : List (Bytes × BackendPeer)) (peer : BackendPeer) (inKey : Bool) :
    anchorPeer ⟨peers, openPeer name, peer, inKey⟩ =
      if perlTrue name then storePeer peers name peer else peers := by
  have hall : name.all isNameByte = true := List.all_eq_true.mpr h
  rw [anchorPeer, currentTrue_openPeer h]
  cases name with
  | nil => rfl
  | cons c cs => simp [openPeer, hall]

variable (libc) in
theorem foldl_perlLine_texts {name : Bytes} (hname : ∀ c ∈ name, isNameByte c = true)
    {lines : List AdminLine} (hlines : ∀ l ∈ lines, l.WellFormed) (st : PerlState) :
    ∃ peer, (AdminSection.texts ⟨name, lines⟩).foldl perlLine st =
        ⟨anchorPeer st, openPeer name, peer, false⟩ ∧
      (perlTrue name = true → Shows libc perlTrue ⟨name, lines⟩ (parsedPeer libc name peer) ∧
        Printable name peer) := by
  induction lines using List.reverseRecOn with
  | nil =>
    have hhash : ∀ c ∈ ascii "[" ++ name ++ ascii "]", c ≠ CStrings.hash := by
      have hbytes : ∀ c ∈ name, c ≠ CStrings.hash := fun c hc =>
        (keywordByte_ne (Bool.or_eq_true_iff.mpr (.inl (hname c hc)))).2.2.1
      exact List.forall_mem_append.mpr
        ⟨List.forall_mem_append.mpr ⟨by decide, hbytes⟩, by decide⟩
    have hheader : headerName (perlTrim (ascii "[" ++ name ++ ascii "]")) = some name := by
      rw [perlTrim_trimmed (trimmed_brackets name) hhash]
      exact headerName_brackets name
    refine ⟨newPeer, ?_, fun _ => ⟨?_, printable_newPeer hname⟩⟩
    · change perlLine st (ascii "[" ++ name ++ ascii "]") = _
      simp only [perlLine, hheader]
    · constructor <;> rfl
  | append_singleton lines l ih =>
    obtain ⟨peer, hfold, hpeer⟩ := ih fun k hk => hlines k (by simp [hk])
    have hline := hlines l (by simp)
    obtain ⟨peer', hpeerLine, heffect⟩ := perlEffect_peerLine libc hline name peer
    have htrim : perlTrim l.text = l.text :=
      perlTrim_trimmed (AdminLine.trimmed_text hline) (AdminLine.not_comment hline)
    have hheader : headerName l.text = none := headerName_of_head (AdminLine.head_text hline)
    have htexts : AdminSection.texts ⟨name, lines ++ [l]⟩ =
        AdminSection.texts ⟨name, lines⟩ ++ [l.text] := by
      simp [AdminSection.texts]
    rw [htexts, List.foldl_append, hfold, List.foldl_cons, List.foldl_nil]
    simp only [perlLine, htrim, hheader, currentTrue_openPeer hname, hpeerLine]
    by_cases htrue : perlTrue name = true
    · obtain ⟨hshows, hprintable⟩ := hpeer htrue
      refine ⟨peer', if_pos htrue, fun _ => ⟨hshows.add heffect.client, ?_⟩⟩
      exact heffect.printable hprintable
    · exact ⟨peer, if_neg htrue, fun h => absurd h htrue⟩

theorem storePeer_new {peers : List (Bytes × BackendPeer)} {id : Bytes}
    (h : ∀ q ∈ peers, q.1 ≠ id) (peer : BackendPeer) :
    storePeer peers id peer = peers ++ [(id, peer)] := by
  rw [storePeer, if_neg]
  rw [List.any_eq_true]
  rintro ⟨q, hq, heq⟩
  exact h q hq (beq_iff_eq.mp heq)

/-- The entry of the hash that a section leads to. -/
def Stored (libc : CLibrary) (s : AdminSection) (q : Bytes × BackendPeer) : Prop :=
  Shows libc perlTrue s (parsedPeer libc q.1 q.2) ∧ Printable q.1 q.2

def Kept (sections : List AdminSection) : List AdminSection :=
  sections.filter fun s => perlTrue s.name

variable (libc) in
theorem matched_sections {sections : List AdminSection} (h : ∀ s ∈ sections, s.WellFormed)
    (hnames : (sections.map AdminSection.name).Nodup) :
    Matched (Stored libc) (Kept sections) (anchorPeer
      ((sections.flatMap AdminSection.texts).foldl perlLine ⟨[], none, newPeer, false⟩)) := by
  induction sections using List.reverseRecOn with
  | nil => exact ⟨by simp [Kept], by simp [anchorPeer, currentTrue]⟩
  | append_singleton sections s ih =>
    have hs := h s (by simp)
    rw [List.map_append, List.nodup_append] at hnames
    obtain ⟨hnodup, -, hdistinct⟩ := hnames
    have hstored := ih (fun s' hs' => h s' (by simp [hs'])) hnodup
    obtain ⟨peer, hfold, hpeer⟩ := foldl_perlLine_texts libc hs.name_bytes hs.lines
      ((sections.flatMap AdminSection.texts).foldl perlLine ⟨[], none, newPeer, false⟩)
    have htexts : s.texts = AdminSection.texts ⟨s.name, s.lines⟩ := rfl
    rw [List.flatMap_append, List.foldl_append, List.flatMap_singleton, htexts, hfold,
      anchorPeer_openPeer hs.name_bytes, Kept, List.filter_append, List.filter_singleton]
    cases htrue : perlTrue s.name with
    | false => simpa [Kept] using hstored
    | true =>
      have hnew : ∀ q ∈ anchorPeer ((sections.flatMap AdminSection.texts).foldl perlLine
          ⟨[], none, newPeer, false⟩), q.1 ≠ s.name := by
        intro q hq
        obtain ⟨s', hs', hshows, -⟩ := hstored.2 q hq
        have hname : q.1 = s'.name := hshows.name
        rw [hname]
        exact hdistinct s'.name (List.mem_map_of_mem (List.mem_filter.mp hs').1) s.name (by simp)
      rw [if_pos rfl, storePeer_new hnew]
      exact hstored.snoc (hpeer htrue)

theorem perlSplit_adminText {sections : List AdminSection} (h : ∀ s ∈ sections, s.WellFormed) :
    perlSplit (adminText sections) = sections.flatMap AdminSection.texts := by
  have hlines := plain_sections h
  have hempty : ∀ line, (sections.flatMap AdminSection.texts).reverse.head? = some line →
      line.isEmpty = false := by
    intro line hline
    have hkeep := (hlines line (List.mem_reverse.mp (List.mem_of_mem_head? hline))).2
    cases line with
    | nil => cases hkeep
    | cons => rfl
  rw [perlSplit, adminText, splitOn_lines fun line hline => (hlines line hline).1.not_mem,
    List.reverse_append]
  cases hreverse : (sections.flatMap AdminSection.texts).reverse with
  | nil => simpa using (List.reverse_eq_nil_iff.mp hreverse).symm
  | cons last lines =>
    have hlast := hempty last (by rw [hreverse]; rfl)
    rw [List.reverse_singleton, List.singleton_append, List.dropWhile_cons_of_pos rfl,
      List.dropWhile_cons_of_neg (by simp [hlast]), ← hreverse, List.reverse_reverse]

variable (libc) in
theorem matched_parseConfig {sections : List AdminSection} (h : ∀ s ∈ sections, s.WellFormed)
    (hnames : (sections.map AdminSection.name).Nodup) :
    Matched (Stored libc) (Kept sections) (parseConfig (adminText sections)) := by
  rw [parseConfig, perlSplit_adminText h]
  exact matched_sections libc h hnames

/-- What the client gets by way of the backend. -/
def viaBackend (libc : CLibrary) (text : Bytes) : List PeerConfig :=
  parserParseConfig libc (buildTextConfig (parseConfig text))

variable (libc) in
theorem matched_viaBackend {sections : List AdminSection} (h : ∀ s ∈ sections, s.WellFormed)
    (hnames : (sections.map AdminSection.name).Nodup) :
    Matched (Shows libc perlTrue) (Kept sections) (viaBackend libc (adminText sections)) := by
  obtain ⟨hleft, hright⟩ := matched_parseConfig libc h hnames
  have hprintable : ∀ q ∈ parseConfig (adminText sections), Printable q.1 q.2 := by
    intro q hq
    obtain ⟨-, -, -, hprintable⟩ := hright q hq
    exact hprintable
  have hsorted : ∀ q, q ∈ sortPeers (parseConfig (adminText sections)) ↔
      q ∈ parseConfig (adminText sections) := fun q => (sortPeers_perm _).mem_iff
  rw [viaBackend, parserParseConfig_buildTextConfig _ hprintable]
  constructor
  · intro s hs
    obtain ⟨q, hq, hshows, -⟩ := hleft s hs
    exact ⟨_, List.mem_map_of_mem ((hsorted q).mpr hq), hshows⟩
  · intro p hp
    obtain ⟨q, hq, rfl⟩ := List.mem_map.mp hp
    obtain ⟨s, hs, hshows, -⟩ := hright q ((hsorted q).mp hq)
    exact ⟨s, hs, hshows⟩

/-! Agreement of the two ways -/

def SameFlags (p q : PeerConfig) : Prop :=
  p.hidden = q.hidden ∧ p.silent = q.silent ∧ p.useTcpOnly = q.useTcpOnly ∧
    p.indirectdata = q.indirectdata ∧ p.primary = q.primary

def SameSections (a b : List PeerConfig) : Prop :=
  (∀ name, (∃ p ∈ a, p.name = name) ↔ ∃ q ∈ b, q.name = name) ∧
    ∀ p ∈ a, ∀ q ∈ b, p.name = q.name →
      SameFlags p q ∧ p.network = q.network ∧ p.network6 = q.network6

/-- The values that the backend and the client take for the same truth. -/
def Unmistakable (v : Bytes) : Prop :=
  v = [] ∨ v = ascii "0" ∨ v = ascii "1" ∨ strcasecmp v (ascii "yes") = true

theorem clientFlag_eq_iff (v : Bytes) : clientFlag v = perlTrue v ↔ Unmistakable v := by
  unfold clientFlag strIsTrue perlTrue Unmistakable
  by_cases hnil : v = []
  · simp [hnil]
  by_cases hzero : v = ascii "0"
  · subst hzero
    exact iff_of_true (by decide) (.inr (.inl rfl))
  by_cases hone : v = ascii "1"
  · subst hone
    exact iff_of_true (by decide) (.inr (.inr (.inl rfl)))
  by_cases hno : strcasecmp v (ascii "no") = true
  · have hyes : ¬ strcasecmp v (ascii "yes") = true := by
      intro hyes
      rw [strcasecmp, beq_iff_eq] at hno hyes
      exact absurd (hno.symm.trans hyes) (by decide)
    simp [hnil, hzero, hone, hno, hyes]
  · cases hyes : strcasecmp v (ascii "yes") <;> simp [hnil, hzero, hone, hno]

def FlagsUnmistakable (s : AdminSection) : Prop :=
  ∀ keyword ∈ flagKeywords, Unmistakable (s.lastValue keyword)

theorem sameFlags_iff {s : AdminSection} {p q : PeerConfig} (hp : Shows libc clientFlag s p)
    (hq : Shows libc perlTrue s q) : SameFlags p q ↔ FlagsUnmistakable s := by
  unfold SameFlags FlagsUnmistakable flagKeywords
  rw [hp.hidden, hp.silent, hp.useTcpOnly, hp.indirectdata, hp.primary, hq.hidden, hq.silent,
    hq.useTcpOnly, hq.indirectdata, hq.primary]
  simp only [clientFlag_eq_iff, List.forall_mem_cons, List.not_mem_nil, false_implies,
    implies_true, and_true]

theorem perlTrue_iff (v : Bytes) : perlTrue v = true ↔ v ≠ [] ∧ v ≠ ascii "0" := by
  simp [perlTrue]

theorem eq_of_name {sections : List AdminSection}
    (hnames : (sections.map AdminSection.name).Nodup) {s s' : AdminSection} (hs : s ∈ sections)
    (hs' : s' ∈ sections) (h : s.name = s'.name) : s = s' :=
  List.inj_on_of_nodup_map hnames hs hs' h

/-- The two ways agree just when no section is lost as false and no flag has a value that only
one of the two takes for true. -/
theorem sameSections_viaBackend_iff (libc : CLibrary) (sections : List AdminSection)
    (h : ∀ s ∈ sections, s.WellFormed) (hnames : (sections.map AdminSection.name).Nodup) :
    SameSections (parserParseConfig libc (adminText sections))
        (viaBackend libc (adminText sections)) ↔
      ∀ s ∈ sections, s.name ≠ [] ∧ s.name ≠ ascii "0" ∧ FlagsUnmistakable s := by
  obtain ⟨hdirect, hdirect'⟩ := matched_parserParseConfig libc h
  obtain ⟨hvia, hvia'⟩ := matched_viaBackend libc h hnames
  constructor
  · rintro ⟨hsame, hpeers⟩ s hs
    obtain ⟨p, hp, hshows⟩ := hdirect s hs
    obtain ⟨q, hq, hname⟩ := (hsame s.name).mp ⟨p, hp, hshows.name⟩
    obtain ⟨s', hs', hshows'⟩ := hvia' q hq
    obtain ⟨hmem, htrue⟩ := List.mem_filter.mp hs'
    obtain rfl := eq_of_name hnames hs hmem (hname.symm.trans hshows'.name)
    obtain ⟨hne, hzero⟩ := (perlTrue_iff s.name).mp htrue
    refine ⟨hne, hzero, (sameFlags_iff hshows hshows').mp ?_⟩
    exact (hpeers p hp q hq (hshows.name.trans hname.symm)).1
  · intro hsections
    have hkept : ∀ s ∈ sections, s ∈ Kept sections := fun s hs =>
      List.mem_filter.mpr ⟨hs, (perlTrue_iff s.name).mpr
        ⟨(hsections s hs).1, (hsections s hs).2.1⟩⟩
    refine ⟨fun name => ⟨?_, ?_⟩, ?_⟩
    · rintro ⟨p, hp, rfl⟩
      obtain ⟨s, hs, hshows⟩ := hdirect' p hp
      obtain ⟨q, hq, hshows'⟩ := hvia s (hkept s hs)
      exact ⟨q, hq, hshows'.name.trans hshows.name.symm⟩
    · rintro ⟨q, hq, rfl⟩
      obtain ⟨s, hs, hshows⟩ := hvia' q hq
      obtain ⟨p, hp, hshows'⟩ := hdirect s (List.mem_filter.mp hs).1
      exact ⟨p, hp, hshows'.name.trans hshows.name.symm⟩
    · intro p hp q hq hname
      obtain ⟨s, hs, hshows⟩ := hdirect' p hp
      obtain ⟨s', hs', hshows'⟩ := hvia' q hq
      obtain rfl := eq_of_name hnames hs (List.mem_filter.mp hs').1
        (hshows.name.symm.trans (hname.trans hshows'.name))
      exact ⟨(sameFlags_iff hshows hshows').mpr (hsections s hs).2.2,
        hshows.network.trans hshows'.network.symm, hshows.network6.trans hshows'.network6.symm⟩

def sampleSections (value : Bytes) : List AdminSection :=
  [⟨ascii "node", [⟨ascii "Hidden", value⟩, ⟨ascii "network", ascii "10.4.0.0/16"⟩]⟩]

theorem plainText_word {word : Bytes} (h : KeywordText word) (hplain : Plain word) :
    PlainText word :=
  ⟨h.trimmed, hplain⟩

/-- A line whose keyword is a word. -/
theorem wellFormed_word {keyword value : Bytes}
    (h : KeywordText keyword ∧ Plain keyword ∧ (∀ c ∈ keyword, c ≠ 61 ∧ c ≠ CStrings.hash) ∧
      keyword.head? ≠ some 91 ∧ ¬ beginKey <+: keyword)
    (hvalue : PlainText value) (hcomment : ∀ c ∈ value, c ≠ CStrings.hash) :
    AdminLine.WellFormed ⟨keyword, value⟩ :=
  ⟨plainText_word h.1 h.2.1, h.2.2.1, h.2.2.2.1, h.2.2.2.2, hvalue, hcomment⟩

theorem sampleSections_wellFormed {value : Bytes} (hvalue : PlainText value)
    (hcomment : ∀ c ∈ value, c ≠ CStrings.hash) :
    ∀ s ∈ sampleSections value, s.WellFormed := by
  have hnetwork : PlainText (ascii "10.4.0.0/16") :=
    ⟨trimmed_of_ends rfl rfl (by decide), by decide⟩
  have hdigits : ∀ c ∈ ascii "10.4.0.0/16", c ≠ CStrings.hash := by decide
  have hname : ∀ c ∈ ascii "node", isNameByte c = true := by decide
  intro s hs
  rw [List.mem_singleton.mp hs]
  refine ⟨hname, fun l hl => ?_⟩
  simp only [List.mem_cons, List.not_mem_nil, or_false] at hl
  rcases hl with rfl | rfl
  · exact wellFormed_word ⟨⟨by decide, by decide⟩, by decide, by decide, by decide, by decide⟩
      hvalue hcomment
  · exact wellFormed_word ⟨⟨by decide, by decide⟩, by decide, by decide, by decide, by decide⟩
      hnetwork hdigits

theorem sameSections_viaBackend_yes :
    SameSections (parserParseConfig plainLibrary (adminText (sampleSections (ascii "Yes"))))
        (viaBackend plainLibrary (adminText (sampleSections (ascii "Yes")))) ↔
      ∀ s ∈ sampleSections (ascii "Yes"),
        s.name ≠ [] ∧ s.name ≠ ascii "0" ∧ FlagsUnmistakable s :=
  sameSections_viaBackend_iff plainLibrary (sampleSections (ascii "Yes"))
    (sampleSections_wellFormed (plainText_word ⟨by decide, by decide⟩ (by decide)) (by decide))
    (by decide)

theorem no_hides_via_backend :
    (∀ s ∈ sampleSections (ascii "no"), s.WellFormed) ∧
      ((sampleSections (ascii "no")).map AdminSection.name).Nodup ∧
      ¬ SameSections (parserParseConfig plainLibrary (adminText (sampleSections (ascii "no"))))
        (viaBackend plainLibrary (adminText (sampleSections (ascii "no")))) := by
  refine ⟨sampleSections_wellFormed (plainText_word ⟨by decide, by decide⟩ (by decide)) (by decide),
    by decide, ?_⟩
  have hdirect : (parserParseConfig plainLibrary (adminText (sampleSections (ascii "no")))).map
      (fun p => (p.name, p.hidden)) = [(ascii "node", false)] := by
    decide +kernel
  have hvia : (viaBackend plainLibrary (adminText (sampleSections (ascii "no")))).map
      (fun p => (p.name, p.hidden)) = [(ascii "node", true)] := by
    decide +kernel
  obtain ⟨p, hp, hpeer⟩ := List.mem_map.mp (hdirect ▸ List.mem_singleton_self _)
  obtain ⟨q, hq, hpeer'⟩ := List.mem_map.mp (hvia ▸ List.mem_singleton_self _)
  obtain ⟨hname, hhidden⟩ := Prod.mk.inj hpeer
  obtain ⟨hname', hhidden'⟩ := Prod.mk.inj hpeer'
  intro hsame
  have hflags := (hsame.2 p hp q hq (hname.trans hname'.symm)).1.1
  rw [hhidden, hhidden'] at hflags
  cases hflags

end ChaosVpn.BackendParser
