import Mathlib.Data.List.Sort
import ChaosVpn.ParserLines
import ChaosVpn.Numerals

/-! build_text_config of chaosvpn-backend-encrypt-and-sign.pl, and what the parser of
the client makes of its text. -/

namespace ChaosVpn.BackendText
open CStrings Numerals Libc AddrMask PeerParser ParserLines TextLines

/-- A scalar in a Boolean context. -/
def perlTrue (v : Bytes) : Bool := !v.isEmpty && v != ascii "0"

/-- The fields of a peer that are written; every value is the text of a scalar. -/
structure BackendPeer where
  gatewayhost : Bytes
  port : Bytes
  primary : Bytes
  hidden : Bytes
  silent : Bytes
  useTcpOnly : Bytes
  indirectData : Bytes
  networks : List Bytes
  networks6 : List Bytes
  pingtest : Bytes
  pingtest6 : Bytes
  ed25519PublicKey : Bytes
  pubkey : Bytes

/-- The order of `sort` on texts. -/
def perlLe : Bytes → Bytes → Bool
  | [], _ => true
  | _ :: _, [] => false
  | a :: as, b :: bs => a < b || (a == b && perlLe as bs)

/-- `sort(keys %$peers)`, with the values at their keys. -/
def sortPeers (peers : List (Bytes × BackendPeer)) : List (Bytes × BackendPeer) :=
  peers.insertionSort fun a b => perlLe a.1 b.1

def flagText (v : Bytes) : Bytes := if perlTrue v then ascii "1" else ascii "0"

def buildPeerText (id : Bytes) (peer : BackendPeer) : Bytes :=
  ascii "\n[" ++ id ++ ascii "]\n" ++
  (if perlTrue peer.hidden then ascii "gatewayhost=localhost\n"
    else ascii "gatewayhost=" ++ peer.gatewayhost ++ ascii "\n") ++
  (if perlTrue peer.port then ascii "port=" ++ peer.port ++ ascii "\n" else []) ++
  (if perlTrue peer.primary then ascii "primary=1\n" else []) ++
  (ascii "hidden=" ++ flagText peer.hidden ++ ascii "\n") ++
  (if perlTrue peer.silent then ascii "silent=" ++ flagText peer.silent ++ ascii "\n" else []) ++
  (if perlTrue peer.useTcpOnly then
    ascii "use-tcp-only=" ++ flagText peer.useTcpOnly ++ ascii "\n" else []) ++
  (if perlTrue peer.indirectData then
    ascii "indirectdata=" ++ flagText peer.indirectData ++ ascii "\n" else []) ++
  (peer.networks.flatMap fun n => ascii "network=" ++ n ++ ascii "\n") ++
  (peer.networks6.flatMap fun n => ascii "network6=" ++ n ++ ascii "\n") ++
  (if peer.pingtest ≠ [] then ascii "#pingtest=" ++ peer.pingtest ++ ascii "\n" else []) ++
  (if peer.pingtest6 ≠ [] then ascii "#pingtest6=" ++ peer.pingtest6 ++ ascii "\n" else []) ++
  (if peer.ed25519PublicKey ≠ [] then
    ascii "Ed25519PublicKey=" ++ peer.ed25519PublicKey ++ ascii "\n" else []) ++
  peer.pubkey

def configHeader : Bytes :=
  ascii "#\n" ++ ascii "# AUTOGENERATED FILE - DO NOT MODIFY MANUALLY!\n" ++
    ascii "# Edit only in chaosvpn-admin.git!\n" ++ ascii "#\n" ++ ascii "\n"

def buildTextConfig (peers : List (Bytes × BackendPeer)) : Bytes :=
  configHeader ++ (sortPeers peers).flatMap fun q => buildPeerText q.1 q.2

/-! The order -/

theorem perlLe_total (a b : Bytes) : perlLe a b = true ∨ perlLe b a = true := by
  induction a generalizing b with
  | nil => exact .inl rfl
  | cons x a ih =>
    cases b with
    | nil => exact .inr rfl
    | cons y b =>
      simp only [perlLe, Bool.or_eq_true, Bool.and_eq_true, decide_eq_true_eq, beq_iff_eq]
      rcases Nat.lt_trichotomy x.toNat y.toNat with h | h | h
      · exact .inl (.inl (UInt8.lt_iff_toNat_lt.mpr h))
      · obtain rfl := UInt8.toNat_inj.mp h
        rcases ih b with h | h
        · exact .inl (.inr ⟨rfl, h⟩)
        · exact .inr (.inr ⟨rfl, h⟩)
      · exact .inr (.inl (UInt8.lt_iff_toNat_lt.mpr h))

theorem perlLe_trans {a b c : Bytes} (hab : perlLe a b = true) (hbc : perlLe b c = true) :
    perlLe a c = true := by
  induction a generalizing b c with
  | nil => rfl
  | cons x a ih =>
    cases b with
    | nil => cases hab
    | cons y b =>
      cases c with
      | nil => cases hbc
      | cons z c =>
        simp only [perlLe, Bool.or_eq_true, Bool.and_eq_true, decide_eq_true_eq,
          beq_iff_eq] at hab hbc ⊢
        rcases hab with h | ⟨rfl, h⟩
        · rcases hbc with h' | ⟨rfl, -⟩
          · exact .inl (UInt8.lt_trans h h')
          · exact .inl h
        · rcases hbc with h' | ⟨rfl, h'⟩
          · exact .inl h'
          · exact .inr ⟨rfl, ih h h'⟩

theorem sortPeers_perm (peers : List (Bytes × BackendPeer)) : (sortPeers peers).Perm peers :=
  List.perm_insertionSort _ _

theorem sortPeers_sorted (peers : List (Bytes × BackendPeer)) :
    (sortPeers peers).Pairwise fun a b => perlLe a.1 b.1 = true := by
  have htotal : Std.Total fun a b : Bytes × BackendPeer => perlLe a.1 b.1 = true :=
    ⟨fun a b => perlLe_total a.1 b.1⟩
  have htrans : IsTrans (Bytes × BackendPeer) fun a b => perlLe a.1 b.1 = true :=
    ⟨fun _ _ _ => perlLe_trans⟩
  exact List.pairwise_insertionSort _ peers

/-! The lines of the text -/

/-- A value that stands in a line of its own without being changed. -/
structure PlainText (s : Bytes) : Prop where
  trimmed : Trimmed s
  plain : ∀ c ∈ s, c ≠ 0 ∧ c ≠ lineFeed

/-- A key as PEM text: first line, body and last line. -/
def PublicKeyText (pubkey : Bytes) : Prop :=
  ∃ first body last, pubkey = (first :: (body ++ [last])).flatMap (· ++ [lineFeed]) ∧
    beginKey <+: first ∧ endKey <+: last ∧
    (∀ line ∈ first :: (body ++ [last]), PlainText line ∧ line ≠ []) ∧
    ∀ line ∈ body, KeyBodyLine line ∧ line.head? ≠ some CStrings.hash

/-- What build_text_config can write without one value turning into something else. -/
structure Printable (id : Bytes) (peer : BackendPeer) : Prop where
  id : ∀ c ∈ id, c ≠ 0 ∧ c ≠ lineFeed
  gatewayhost : PlainText peer.gatewayhost
  port : PlainText peer.port
  networks : ∀ n ∈ peer.networks, PlainText n
  networks6 : ∀ n ∈ peer.networks6, PlainText n
  pingtest : PlainText peer.pingtest
  pingtest6 : PlainText peer.pingtest6
  ed25519PublicKey : PlainText peer.ed25519PublicKey
  pubkey : peer.pubkey = [] ∨ PublicKeyText peer.pubkey

def keepToken (token : Bytes) : Bool := !token.isEmpty && token.head? != some CStrings.hash

theorem parserLines_eq {data : Bytes} (h : ∀ c ∈ data, c ≠ 0) :
    parserLines data = keptLines lineFeed keepToken data := by
  rw [parserLines, cstr_eq fun hmem => h 0 hmem rfl]
  rfl

/-- The lines of a peer, with the blank one in front and the comments. -/
def peerLines (id : Bytes) (peer : BackendPeer) : List Bytes :=
  [[], ascii "[" ++ id ++ ascii "]",
    if perlTrue peer.hidden then ascii "gatewayhost=" ++ ascii "localhost"
      else ascii "gatewayhost=" ++ peer.gatewayhost] ++
  (if perlTrue peer.port then [ascii "port=" ++ peer.port] else []) ++
  (if perlTrue peer.primary then [ascii "primary=" ++ ascii "1"] else []) ++
  [ascii "hidden=" ++ flagText peer.hidden] ++
  (if perlTrue peer.silent then [ascii "silent=" ++ flagText peer.silent] else []) ++
  (if perlTrue peer.useTcpOnly then [ascii "use-tcp-only=" ++ flagText peer.useTcpOnly] else []) ++
  (if perlTrue peer.indirectData then [ascii "indirectdata=" ++ flagText peer.indirectData]
    else []) ++
  (peer.networks.map fun n => ascii "network=" ++ n) ++
  (peer.networks6.map fun n => ascii "network6=" ++ n) ++
  (if peer.pingtest ≠ [] then [ascii "#pingtest=" ++ peer.pingtest] else []) ++
  (if peer.pingtest6 ≠ [] then [ascii "#pingtest6=" ++ peer.pingtest6] else []) ++
  (if peer.ed25519PublicKey ≠ [] then [ascii "Ed25519PublicKey=" ++ peer.ed25519PublicKey]
    else [])

theorem flatMap_ite {α β : Type} (c : Prop) [Decidable c] (a : List α) (f : α → List β) :
    (if c then a else []).flatMap f = if c then a.flatMap f else [] := by
  split <;> rfl

theorem buildPeerText_eq (id : Bytes) (peer : BackendPeer) :
    buildPeerText id peer = (peerLines id peer).flatMap (· ++ [lineFeed]) ++ peer.pubkey := by
  have hend : ascii "\n" = [lineFeed] := rfl
  have hopen : ascii "\n[" = [lineFeed] ++ ascii "[" := rfl
  have hclose : ascii "]\n" = ascii "]" ++ [lineFeed] := rfl
  have hlocalhost : ascii "gatewayhost=localhost\n" =
      ascii "gatewayhost=" ++ ascii "localhost" ++ [lineFeed] := rfl
  have hprimary : ascii "primary=1\n" = ascii "primary=" ++ ascii "1" ++ [lineFeed] := rfl
  rw [buildPeerText, peerLines, hend, hopen, hclose, hlocalhost, hprimary]
  cases perlTrue peer.hidden <;>
    simp only [List.flatMap_append, flatMap_ite, List.flatMap_cons, List.flatMap_nil,
      List.flatMap_map, List.append_nil, List.nil_append, List.append_assoc, if_true, if_false,
      Bool.false_eq_true]

/-! What the parser makes of them -/

variable {libc : CLibrary}

/-- The parser on the lines that it keeps. -/
def feed (libc : CLibrary) (st : ParserState) (lines : List Bytes) : ParserState :=
  (lines.filter keepToken).foldl (parserParseLine libc) st

theorem feed_append (st : ParserState) (a b : List Bytes) :
    feed libc st (a ++ b) = feed libc (feed libc st a) b := by
  rw [feed, List.filter_append, List.foldl_append]
  rfl

theorem feed_comment (st : ParserState) {line : Bytes} (h : keepToken line = false) :
    feed libc st [line] = st := by
  simp [feed, h]

theorem feed_header (st : ParserState) (id : Bytes) :
    feed libc st [ascii "[" ++ id ++ ascii "]"] = ⟨peers st, some (parserCreateConfig id), false⟩ := by
  have hkeep : keepToken (ascii "[" ++ id ++ ascii "]") = true := rfl
  rw [feed, List.filter_singleton, hkeep]
  exact parserParseLine_brackets st id

/-- A byte of a name over letters, digits, `_` and `-`. -/
def isNameByte (c : UInt8) : Bool :=
  isDigit c || (97 ≤ toLower c && toLower c ≤ 122) || c == 95 || c == 45

/-- A keyword with its `=`. -/
structure KeywordText (keyword : Bytes) : Prop where
  nonempty : keyword ≠ []
  bytes : ∀ c ∈ keyword, (isNameByte c || c == 61) = true

theorem keywordByte_ne {c : UInt8} (h : (isNameByte c || c == 61) = true) :
    isSpace c = false ∧ c ≠ 91 ∧ c ≠ CStrings.hash ∧ c ≠ 0 := by
  have hbytes : ∀ n < 256, (isNameByte (UInt8.ofNat n) || UInt8.ofNat n == 61) = true →
      isSpace (UInt8.ofNat n) = false ∧ UInt8.ofNat n ≠ 91 ∧ UInt8.ofNat n ≠ CStrings.hash ∧
        UInt8.ofNat n ≠ 0 := by
    decide +kernel
  have hc := hbytes c.toNat c.toNat_lt
  rw [UInt8.ofNat_toNat] at hc
  exact hc h

theorem KeywordText.trimmed {keyword : Bytes} (h : KeywordText keyword) : Trimmed keyword :=
  ⟨fun c hc => (keywordByte_ne (h.bytes c (List.mem_of_mem_head? hc))).1,
    fun c hc => (keywordByte_ne (h.bytes c (List.mem_of_getLast? hc))).1⟩

/-- The line of an item, under the keyword as the text has it. -/
theorem feed_entry (i : Nat) {entry : Bytes × (Bytes → PeerConfig → PeerConfig)}
    (hentry : (configItems libc)[i]? = some entry) {keyword value : Bytes}
    (htext : KeywordText keyword) (hkeyword : keyword.map toLower = entry.1.map toLower)
    (hvalue : Trimmed value) (complete : List PeerConfig) (p : PeerConfig) (keyMode : Bool) :
    feed libc ⟨complete, some p, keyMode⟩ [keyword ++ value] =
      ⟨complete, some (entry.2 value p), keyMode⟩ := by
  obtain ⟨k, ks, rfl⟩ := List.exists_cons_of_ne_nil htext.nonempty
  obtain ⟨-, hbracket, hhash, -⟩ := keywordByte_ne (htext.bytes k (by simp))
  have hkeep : keepToken (k :: ks ++ value) = true := by
    simp [keepToken, hhash]
  rw [feed, List.filter_singleton, hkeep]
  exact parserParseLine_entry (List.mem_of_getElem? hentry) hkeyword
    (htext.trimmed.append hvalue (by simp)) (by simpa using hbracket) complete p keyMode

/-- The same with the effect on the peer given as a function. -/
theorem feed_set (i : Nat) (set : PeerConfig → PeerConfig)
    {entry : Bytes × (Bytes → PeerConfig → PeerConfig)}
    (hentry : (configItems libc)[i]? = some entry) {keyword value : Bytes}
    (htext : KeywordText keyword) (hkeyword : keyword.map toLower = entry.1.map toLower)
    (hvalue : Trimmed value) (complete : List PeerConfig) (p : PeerConfig) (keyMode : Bool)
    (hset : entry.2 value p = set p) :
    feed libc ⟨complete, some p, keyMode⟩ [keyword ++ value] = ⟨complete, some (set p), keyMode⟩ := by
  rw [feed_entry i hentry htext hkeyword hvalue, hset]

theorem feed_optional (i : Nat) (set : PeerConfig → PeerConfig)
    {entry : Bytes × (Bytes → PeerConfig → PeerConfig)}
    (hentry : (configItems libc)[i]? = some entry) {keyword value : Bytes} {c : Prop} [Decidable c]
    (htext : KeywordText keyword) (hkeyword : keyword.map toLower = entry.1.map toLower)
    (hvalue : Trimmed value) (complete : List PeerConfig) (p : PeerConfig) (keyMode : Bool)
    (hset : (if c then entry.2 value p else p) = set p) :
    feed libc ⟨complete, some p, keyMode⟩ (if c then [keyword ++ value] else []) =
      ⟨complete, some (set p), keyMode⟩ := by
  rw [← hset]
  split
  · exact feed_entry i hentry htext hkeyword hvalue complete p keyMode
  · rfl

theorem trimmed_flagText (v : Bytes) : Trimmed (flagText v) := by
  have hone : KeywordText (ascii "1") := ⟨by decide, by decide⟩
  have hzero : KeywordText (ascii "0") := ⟨by decide, by decide⟩
  unfold flagText
  split
  · exact hone.trimmed
  · exact hzero.trimmed

theorem strIsTrue_flagText (v : Bytes) : strIsTrue (flagText v) false = perlTrue v := by
  unfold flagText
  cases perlTrue v <;> decide

/-- A flag that is always written. -/
theorem feed_flagLine (i : Nat) (set : Bool → PeerConfig → PeerConfig) {config : Bytes}
    (hentry : (configItems libc)[i]? = some (config, fun item p => set (strIsTrue item false) p))
    {keyword : Bytes} (htext : KeywordText keyword)
    (hkeyword : keyword.map toLower = config.map toLower) (v : Bytes) (complete : List PeerConfig)
    (p : PeerConfig) (keyMode : Bool) :
    feed libc ⟨complete, some p, keyMode⟩ [keyword ++ flagText v] =
      ⟨complete, some (set (perlTrue v) p), keyMode⟩ := by
  rw [feed_entry i hentry htext hkeyword (trimmed_flagText v)]
  exact congrArg (fun b => ParserState.mk complete (some (set b p)) keyMode) (strIsTrue_flagText v)

/-- A flag that is written when it is set. -/
theorem feed_flag (i : Nat) (set : Bool → PeerConfig → PeerConfig) {config : Bytes}
    (hentry : (configItems libc)[i]? = some (config, fun item p => set (strIsTrue item false) p))
    {keyword : Bytes} (htext : KeywordText keyword)
    (hkeyword : keyword.map toLower = config.map toLower) (v : Bytes) (complete : List PeerConfig)
    (p : PeerConfig) (keyMode : Bool) (hoff : set false p = p) :
    feed libc ⟨complete, some p, keyMode⟩ (if perlTrue v then [keyword ++ flagText v] else []) =
      ⟨complete, some (set (perlTrue v) p), keyMode⟩ := by
  refine feed_optional i (set (perlTrue v)) hentry htext hkeyword (trimmed_flagText v) _ _ _ ?_
  change (if perlTrue v then set (strIsTrue (flagText v) false) p else p) = _
  rw [strIsTrue_flagText]
  cases perlTrue v
  · exact hoff.symm
  · rfl

theorem feed_map (i : Nat) (set : PeerConfig → PeerConfig)
    {entry : Bytes × (Bytes → PeerConfig → PeerConfig)}
    (hentry : (configItems libc)[i]? = some entry) {keyword : Bytes} {values : List Bytes}
    (htext : KeywordText keyword) (hkeyword : keyword.map toLower = entry.1.map toLower)
    (hvalues : ∀ value ∈ values, Trimmed value) (complete : List PeerConfig) (p : PeerConfig)
    (keyMode : Bool) (hset : values.foldl (fun p value => entry.2 value p) p = set p) :
    feed libc ⟨complete, some p, keyMode⟩ (values.map fun value => keyword ++ value) =
      ⟨complete, some (set p), keyMode⟩ := by
  rw [← hset]
  clear hset
  induction values generalizing p with
  | nil => rfl
  | cons value values ih =>
    rw [List.map_cons, ← List.singleton_append, feed_append,
      feed_entry i hentry htext hkeyword (hvalues value (by simp)),
      ih fun v hv => hvalues v (by simp [hv])]
    rfl

theorem feed_optionalComment {line : Bytes} {c : Prop} [Decidable c] (st : ParserState)
    (h : keepToken line = false) : feed libc st (if c then [line] else []) = st := by
  split
  · exact feed_comment st h
  · rfl

def clientHost (peer : BackendPeer) : Bytes :=
  if perlTrue peer.hidden then ascii "localhost" else peer.gatewayhost

def clientPort (peer : BackendPeer) : Nat :=
  if perlTrue peer.port then parsePort tincDefaultPort peer.port else tincDefaultPort

def verifiedSubnets (libc : CLibrary) (family : Family) (list : List Bytes) : List Bytes :=
  list.filter fun n => addrmaskVerifySubnet libc n (some family)

theorem foldl_addSubnet (family : Family) (values list : List Bytes) :
    values.foldl (addSubnet libc family) list = list ++ verifiedSubnets libc family values := by
  induction values generalizing list with
  | nil => simp [verifiedSubnets]
  | cons value values ih =>
    rw [List.foldl_cons, ih, addSubnet, verifiedSubnets, verifiedSubnets, List.filter_cons]
    split <;> simp

theorem foldl_network (values : List Bytes) (p : PeerConfig) :
    values.foldl (fun p value => { p with network := addSubnet libc .inet p.network value }) p =
      { p with network := p.network ++ verifiedSubnets libc .inet values } := by
  rw [← foldl_addSubnet]
  induction values generalizing p with
  | nil => rfl
  | cons value values ih => rw [List.foldl_cons, ih, List.foldl_cons]

theorem foldl_network6 (values : List Bytes) (p : PeerConfig) :
    values.foldl (fun p value => { p with network6 := addSubnet libc .inet6 p.network6 value }) p =
      { p with network6 := p.network6 ++ verifiedSubnets libc .inet6 values } := by
  rw [← foldl_addSubnet]
  induction values generalizing p with
  | nil => rfl
  | cons value values ih => rw [List.foldl_cons, ih, List.foldl_cons]

/-- The peer that the parser gets out of the lines of a peer. -/
def parsedPeer (libc : CLibrary) (id : Bytes) (peer : BackendPeer) : PeerConfig :=
  { parserCreateConfig id with
    gatewayhost := clientHost peer
    port := clientPort peer
    primary := perlTrue peer.primary
    hidden := perlTrue peer.hidden
    silent := perlTrue peer.silent
    useTcpOnly := perlTrue peer.useTcpOnly
    indirectdata := perlTrue peer.indirectData
    network := verifiedSubnets libc .inet peer.networks
    network6 := verifiedSubnets libc .inet6 peer.networks6
    ed25519publickey := peer.ed25519PublicKey
    key := peer.pubkey }

theorem optional_port {peer : BackendPeer} {p : PeerConfig} (h : p.port = tincDefaultPort) :
    (if perlTrue peer.port then { p with port := parsePort p.port peer.port } else p) =
      { p with port := clientPort peer } := by
  rw [clientPort, ← h]
  cases perlTrue peer.port <;> rfl

theorem optional_ed25519publickey {key : Bytes} {p : PeerConfig} (h : p.ed25519publickey = []) :
    (if key ≠ [] then { p with ed25519publickey := key } else p) =
      { p with ed25519publickey := key } := by
  by_cases hkey : key = []
  · rw [if_neg (not_not.mpr hkey), hkey, ← h]
  · rw [if_pos hkey]

theorem feed_peerLines {id : Bytes} {peer : BackendPeer} (h : Printable id peer)
    (st : ParserState) :
    feed libc st (peerLines id peer) =
      ⟨peers st, some { parsedPeer libc id peer with key := [] }, false⟩ := by
  have hgateway : (if perlTrue peer.hidden then ascii "gatewayhost=" ++ ascii "localhost"
      else ascii "gatewayhost=" ++ peer.gatewayhost) = ascii "gatewayhost=" ++ clientHost peer := by
    unfold clientHost
    split <;> rfl
  have hhost : Trimmed (clientHost peer) := by
    unfold clientHost
    split
    · exact KeywordText.trimmed ⟨by decide, by decide⟩
    · exact h.gatewayhost.trimmed
  have hprimary : (if perlTrue peer.primary then [ascii "primary=" ++ ascii "1"] else []) =
      if perlTrue peer.primary then [ascii "primary=" ++ flagText peer.primary] else [] := by
    unfold flagText
    split <;> rfl
  have hnetwork : KeywordText (ascii "network=") := ⟨by decide, by decide⟩
  have hnetwork6 : KeywordText (ascii "network6=") := ⟨by decide, by decide⟩
  have hed25519 : KeywordText (ascii "Ed25519PublicKey=") := ⟨by decide, by decide⟩
  have hpingtest : keepToken (ascii "#pingtest=" ++ peer.pingtest) = false := rfl
  have hpingtest6 : keepToken (ascii "#pingtest6=" ++ peer.pingtest6) = false := rfl
  have hstart : ∀ a b c : Bytes, [a, b, c] = [a] ++ [b] ++ [c] := fun _ _ _ => rfl
  rw [peerLines, hgateway, hprimary, hstart]
  simp only [feed_append]
  rw [feed_comment st rfl, feed_header,
    feed_set 0 (fun p => { p with gatewayhost := clientHost peer }) rfl
      ⟨by decide, by decide⟩ rfl hhost _ _ _ rfl,
    feed_optional 9 (fun p => { p with port := clientPort peer }) rfl
      ⟨by decide, by decide⟩ rfl h.port.trimmed _ _ _ (optional_port rfl),
    feed_flag 14 (fun b p => { p with primary := b }) rfl ⟨by decide, by decide⟩ rfl _ _ _ _ rfl,
    feed_flagLine 7 (fun b p => { p with hidden := b }) rfl ⟨by decide, by decide⟩ rfl,
    feed_flag 8 (fun b p => { p with silent := b }) rfl ⟨by decide, by decide⟩ rfl _ _ _ _ rfl,
    feed_flag 2 (fun b p => { p with useTcpOnly := b }) rfl ⟨by decide, by decide⟩ rfl _ _ _ _ rfl,
    feed_flag 10 (fun b p => { p with indirectdata := b }) rfl ⟨by decide, by decide⟩ rfl _ _ _ _
      rfl,
    feed_map 3 (fun p => { p with network := p.network ++ verifiedSubnets libc .inet peer.networks })
      rfl hnetwork rfl (fun n hn => (h.networks n hn).trimmed) _ _ _ (foldl_network _ _),
    feed_map 4
      (fun p => { p with network6 := p.network6 ++ verifiedSubnets libc .inet6 peer.networks6 })
      rfl hnetwork6 rfl (fun n hn => (h.networks6 n hn).trimmed) _ _ _ (foldl_network6 _ _),
    feed_optionalComment _ hpingtest, feed_optionalComment _ hpingtest6,
    feed_optional 15 (fun p => { p with ed25519publickey := peer.ed25519PublicKey }) rfl hed25519 rfl
      h.ed25519PublicKey.trimmed _ _ _ (optional_ed25519publickey rfl)]
  rfl

/-! The whole text -/

def Plain (s : Bytes) : Prop := ∀ c ∈ s, c ≠ 0 ∧ c ≠ lineFeed

instance (s : Bytes) : Decidable (Plain s) := inferInstanceAs (Decidable (∀ c ∈ s, _))

theorem Plain.append {a b : Bytes} (ha : Plain a) (hb : Plain b) : Plain (a ++ b) := by
  intro c hc
  rcases List.mem_append.mp hc with hc | hc
  · exact ha c hc
  · exact hb c hc

theorem Plain.not_mem {s : Bytes} (h : Plain s) : lineFeed ∉ s := fun hmem => (h lineFeed hmem).2 rfl

theorem plain_flagText (v : Bytes) : Plain (flagText v) := by
  unfold flagText
  split <;> decide

theorem forall_mem_optional {P : Bytes → Prop} {c : Prop} [Decidable c] {line : Bytes} (h : P line) :
    ∀ l ∈ if c then [line] else [], P l := by
  split
  · simpa using h
  · simp

theorem plain_peerLines {id : Bytes} {peer : BackendPeer} (h : Printable id peer) :
    ∀ line ∈ peerLines id peer, Plain line := by
  have hid : Plain id := h.id
  have hhost : Plain peer.gatewayhost := h.gatewayhost.plain
  have hport : Plain peer.port := h.port.plain
  have hpingtest : Plain peer.pingtest := h.pingtest.plain
  have hpingtest6 : Plain peer.pingtest6 := h.pingtest6.plain
  have hed25519 : Plain peer.ed25519PublicKey := h.ed25519PublicKey.plain
  have hlist : ∀ {keyword : Bytes} {values : List Bytes}, Plain keyword →
      (∀ v ∈ values, Plain v) → ∀ line ∈ values.map fun v => keyword ++ v, Plain line := by
    intro keyword values hkeyword hvalues line hline
    obtain ⟨v, hv, rfl⟩ := List.mem_map.mp hline
    exact hkeyword.append (hvalues v hv)
  unfold peerLines
  repeat' refine List.forall_mem_append.mpr ⟨?_, ?_⟩
  · intro line hline
    simp only [List.mem_cons, List.not_mem_nil, or_false] at hline
    rcases hline with rfl | rfl | rfl
    · decide
    · exact ((by decide : Plain (ascii "[")).append hid).append (by decide)
    · split
      · decide
      · exact (by decide : Plain (ascii "gatewayhost=")).append hhost
  · exact forall_mem_optional ((by decide : Plain (ascii "port=")).append hport)
  · exact forall_mem_optional (by decide)
  · exact List.forall_mem_singleton.mpr
      ((by decide : Plain (ascii "hidden=")).append (plain_flagText _))
  · exact forall_mem_optional ((by decide : Plain (ascii "silent=")).append (plain_flagText _))
  · exact forall_mem_optional ((by decide : Plain (ascii "use-tcp-only=")).append (plain_flagText _))
  · exact forall_mem_optional ((by decide : Plain (ascii "indirectdata=")).append (plain_flagText _))
  · exact hlist (by decide) fun n hn => (h.networks n hn).plain
  · exact hlist (by decide) fun n hn => (h.networks6 n hn).plain
  · exact forall_mem_optional ((by decide : Plain (ascii "#pingtest=")).append hpingtest)
  · exact forall_mem_optional ((by decide : Plain (ascii "#pingtest6=")).append hpingtest6)
  · exact forall_mem_optional ((by decide : Plain (ascii "Ed25519PublicKey=")).append hed25519)

/-- The lines of the key that the parser sees, none if there is no key. -/
theorem tokens_pubkey {pubkey : Bytes} (h : pubkey = [] ∨ PublicKeyText pubkey)
    (complete : List PeerConfig) (p : PeerConfig) (hkey : p.key = []) :
    (keptLines lineFeed keepToken pubkey).foldl (parserParseLine libc) ⟨complete, some p, false⟩ =
      ⟨complete, some { p with key := pubkey }, false⟩ := by
  rcases h with rfl | ⟨first, body, last, rfl, hfirst, hlast, hlines, hbody⟩
  · have hnil : keptLines lineFeed keepToken [] = [] := rfl
    rw [hnil, List.foldl_nil, ← hkey]
  · have hplain : ∀ line ∈ first :: (body ++ [last]), lineFeed ∉ line :=
      fun line hline => Plain.not_mem (hlines line hline).1.plain
    have hkeep : ∀ line ∈ first :: (body ++ [last]), keepToken line = true := by
      have hdash : ∀ {start line : Bytes}, start.head? = some 45 → start <+: line →
          keepToken line = true := by
        rintro start line hstart ⟨rest, rfl⟩
        cases start with
        | nil => cases hstart
        | cons c start =>
          cases hstart
          rfl
      intro line hline
      rcases List.mem_cons.mp hline with rfl | hline
      · exact hdash rfl hfirst
      · rcases List.mem_append.mp hline with hline | hline
        · have hne := (hlines line (by simp [hline])).2
          have hhash := (hbody line hline).2
          simp [keepToken, hne, hhash]
        · exact hdash rfl (List.mem_singleton.mp hline ▸ hlast)
    rw [keptLines_lines rfl hplain, List.filter_eq_self.mpr hkeep]
    exact foldl_key hfirst (hlines first (by simp)).1.trimmed hlast
      (hlines last (by simp)).1.trimmed (fun line hline => (hbody line hline).1) _ _ _

theorem complete_peerLines (lines : List Bytes) :
    Complete lineFeed (lines.flatMap (· ++ [lineFeed])) :=
  complete_flatMap fun line _ => complete_line line

theorem tokens_buildPeerText {id : Bytes} {peer : BackendPeer} (h : Printable id peer)
    (st : ParserState) :
    (keptLines lineFeed keepToken (buildPeerText id peer)).foldl (parserParseLine libc) st =
      ⟨peers st, some (parsedPeer libc id peer), false⟩ := by
  rw [buildPeerText_eq, keptLines_append rfl (complete_peerLines _), List.foldl_append,
    keptLines_lines rfl fun line hline => (plain_peerLines h line hline).not_mem]
  have hfeed : feed libc st (peerLines id peer) = _ := feed_peerLines h st
  rw [feed] at hfeed
  rw [hfeed]
  exact tokens_pubkey h.pubkey _ _ rfl

theorem complete_buildPeerText {id : Bytes} {peer : BackendPeer} (h : Printable id peer) :
    Complete lineFeed (buildPeerText id peer) := by
  rw [buildPeerText_eq]
  refine complete_append (complete_peerLines _) ?_
  rcases h.pubkey with hkey | ⟨first, body, last, hkey, -⟩
  · exact .inl hkey
  · rw [hkey]
    exact complete_peerLines _

theorem nonzero_buildPeerText {id : Bytes} {peer : BackendPeer} (h : Printable id peer) :
    ∀ c ∈ buildPeerText id peer, c ≠ 0 := by
  have hlines : ∀ {lines : List Bytes}, (∀ line ∈ lines, Plain line) →
      ∀ c ∈ lines.flatMap (· ++ [lineFeed]), c ≠ 0 := by
    intro lines hplain c hc
    obtain ⟨line, hline, hc⟩ := List.mem_flatMap.mp hc
    rcases List.mem_append.mp hc with hc | hc
    · exact (hplain line hline c hc).1
    · rw [List.mem_singleton.mp hc]
      decide
  intro c hc
  rw [buildPeerText_eq] at hc
  rcases List.mem_append.mp hc with hc | hc
  · exact hlines (plain_peerLines h) c hc
  · rcases h.pubkey with hkey | ⟨first, body, last, hkey, -, -, hpubkey, -⟩
    · rw [hkey] at hc
      cases hc
    · rw [hkey] at hc
      exact hlines (fun line hline => (hpubkey line hline).1.plain) c hc

/-- One peer after the other, in the order of the keys. -/
theorem parserParseConfig_buildTextConfig (peers : List (Bytes × BackendPeer))
    (h : ∀ q ∈ peers, Printable q.1 q.2) :
    parserParseConfig libc (buildTextConfig peers) =
      (sortPeers peers).map fun q => parsedPeer libc q.1 q.2 := by
  have hsorted : ∀ q ∈ sortPeers peers, Printable q.1 q.2 :=
    fun q hq => h q ((sortPeers_perm peers).mem_iff.mp hq)
  have hzero : ∀ c ∈ buildTextConfig peers, c ≠ 0 := by
    intro c hc
    rcases List.mem_append.mp hc with hc | hc
    · have hheader : ∀ c ∈ configHeader, c ≠ 0 := by decide +kernel
      exact hheader c hc
    · obtain ⟨q, hq, hc⟩ := List.mem_flatMap.mp hc
      exact nonzero_buildPeerText (hsorted q hq) c hc
  have htokens : parserLines (buildTextConfig peers) =
      (sortPeers peers).flatMap fun q => keptLines lineFeed keepToken (buildPeerText q.1 q.2) := by
    have hheader : keptLines lineFeed keepToken configHeader = [] := by decide +kernel
    have hcomplete : Complete lineFeed configHeader := .inr (by decide +kernel)
    rw [parserLines_eq hzero, buildTextConfig, keptLines_append rfl hcomplete, hheader,
      List.nil_append, keptLines_flatMap rfl fun q hq => complete_buildPeerText (hsorted q hq)]
  have hpeers : ∀ (sorted : List (Bytes × BackendPeer)) (st : ParserState),
      (∀ q ∈ sorted, Printable q.1 q.2) →
      PeerParser.peers ((sorted.flatMap fun q =>
        keptLines lineFeed keepToken (buildPeerText q.1 q.2)).foldl (parserParseLine libc) st) =
          PeerParser.peers st ++ sorted.map fun q => parsedPeer libc q.1 q.2 := by
    intro sorted
    induction sorted with
    | nil => simp
    | cons q sorted ih =>
      intro st hq
      rw [List.flatMap_cons, List.foldl_append, tokens_buildPeerText (hq q (by simp)),
        ih _ fun q' hq' => hq q' (by simp [hq'])]
      simp [PeerParser.peers]
  rw [parserParseConfig, htokens]
  exact hpeers (sortPeers peers) ⟨[], none, false⟩ hsorted

/-! The round trip -/

/-- A peer as an administrator sets it up. -/
structure WellFormedPeer (libc : CLibrary) (id : Bytes) (peer : BackendPeer) : Prop where
  id_nonempty : id ≠ []
  id_bytes : ∀ c ∈ id, isNameByte c = true
  gatewayhost : PlainText peer.gatewayhost
  port : ∃ n, 1 ≤ n ∧ n ≤ 65535 ∧ peer.port = decimal n
  networks : ∀ n ∈ peer.networks, PlainText n ∧ addrmaskVerifySubnet libc n (some .inet) = true
  networks6 : ∀ n ∈ peer.networks6, PlainText n ∧ addrmaskVerifySubnet libc n (some .inet6) = true
  pingtest : PlainText peer.pingtest
  pingtest6 : PlainText peer.pingtest6
  ed25519PublicKey : PlainText peer.ed25519PublicKey
  pubkey : PublicKeyText peer.pubkey

/-- The same peer on the side of the client. -/
def receivedPeer (id : Bytes) (peer : BackendPeer) : PeerConfig :=
  { parserCreateConfig id with
    gatewayhost := clientHost peer
    port := digitsValue peer.port
    primary := perlTrue peer.primary
    hidden := perlTrue peer.hidden
    silent := perlTrue peer.silent
    useTcpOnly := perlTrue peer.useTcpOnly
    indirectdata := perlTrue peer.indirectData
    network := peer.networks
    network6 := peer.networks6
    ed25519publickey := peer.ed25519PublicKey
    key := peer.pubkey }

theorem plainText_decimal (n : Nat) : PlainText (decimal n) := by
  have hdigits : ∀ c ∈ decimal n, isSpace c = false :=
    fun c hc => isSpace_of_isDigit (isDigit_of_mem_decimal hc)
  refine ⟨⟨fun c hc => hdigits c (List.mem_of_mem_head? hc),
    fun c hc => hdigits c (List.mem_of_getLast? hc)⟩, fun c hc => ⟨?_, ?_⟩⟩
  all_goals
    rintro rfl
    exact absurd (isDigit_of_mem_decimal hc) (by decide)

theorem printable_of_wellFormed {id : Bytes} {peer : BackendPeer} (h : WellFormedPeer libc id peer) :
    Printable id peer where
  id c hc := by
    have hname := h.id_bytes c hc
    constructor
    all_goals
      rintro rfl
      exact absurd hname (by decide)
  gatewayhost := h.gatewayhost
  port := by
    obtain ⟨n, -, -, hport⟩ := h.port
    exact hport ▸ plainText_decimal n
  networks n hn := (h.networks n hn).1
  networks6 n hn := (h.networks6 n hn).1
  pingtest := h.pingtest
  pingtest6 := h.pingtest6
  ed25519PublicKey := h.ed25519PublicKey
  pubkey := .inr h.pubkey

theorem clientPort_decimal {peer : BackendPeer} {n : Nat} (hpos : 1 ≤ n) (hlast : n ≤ 65535)
    (hport : peer.port = decimal n) : clientPort peer = digitsValue peer.port := by
  have hlong : n ≤ ulongMax := Nat.le_trans hlast (by decide)
  have hne : n ≠ ulongMax := by
    unfold ulongMax
    omega
  obtain ⟨d, ds, hdecimal, hd⟩ := head_decimal hpos
  have htrue : perlTrue (decimal n) = true := by
    simp [perlTrue, hdecimal, ascii, hd]
  rw [clientPort, hport, if_pos htrue, parsePort, strtoul_decimal hpos hlong, if_pos hne,
    digitsValue_decimal, Nat.mod_eq_of_lt (by omega)]

theorem parsedPeer_wellFormed {id : Bytes} {peer : BackendPeer} (h : WellFormedPeer libc id peer) :
    parsedPeer libc id peer = receivedPeer id peer := by
  obtain ⟨n, hpos, hlast, hport⟩ := h.port
  have hnetworks : verifiedSubnets libc .inet peer.networks = peer.networks :=
    List.filter_eq_self.mpr fun n hn => (h.networks n hn).2
  have hnetworks6 : verifiedSubnets libc .inet6 peer.networks6 = peer.networks6 :=
    List.filter_eq_self.mpr fun n hn => (h.networks6 n hn).2
  rw [parsedPeer, clientPort_decimal hpos hlast hport, hnetworks, hnetworks6]
  rfl

/-- The client reads back the peers that the backend wrote, sorted by their ids. -/
theorem parserParseConfig_roundTrip (libc : CLibrary) (peers : List (Bytes × BackendPeer))
    (hids : (peers.map Prod.fst).Nodup) (hpeers : ∀ q ∈ peers, WellFormedPeer libc q.1 q.2) :
    ∃ sorted : List (Bytes × BackendPeer), sorted.Perm peers ∧
      (sorted.map Prod.fst).Pairwise (fun a b => perlLe a b = true ∧ a ≠ b) ∧
      parserParseConfig libc (buildTextConfig peers) =
        sorted.map fun q => receivedPeer q.1 q.2 := by
  have hperm := sortPeers_perm peers
  refine ⟨sortPeers peers, hperm, ?_, ?_⟩
  · have hdistinct : ((sortPeers peers).map Prod.fst).Pairwise (· ≠ ·) :=
      (hperm.map Prod.fst).nodup_iff.mpr hids
    exact (List.pairwise_map.mpr (sortPeers_sorted peers)).and hdistinct
  · rw [parserParseConfig_buildTextConfig peers fun q hq => printable_of_wellFormed (hpeers q hq)]
    exact List.map_congr_left fun q hq =>
      parsedPeer_wellFormed (hpeers q (hperm.mem_iff.mp hq))

def samplePubkey : Bytes :=
  [beginKey, ascii "MIIBCgKCAQEA", endKey].flatMap (· ++ [lineFeed])

def samplePeer (hidden : Bytes) : BackendPeer where
  gatewayhost := ascii "vpn.example.org"
  port := decimal 655
  primary := ascii "1"
  hidden := hidden
  silent := ascii "0"
  useTcpOnly := ascii "yes"
  indirectData := []
  networks := [ascii "172.31.0.0/24", ascii "10.4.0.0/16"]
  networks6 := []
  pingtest := ascii "172.31.0.1"
  pingtest6 := []
  ed25519PublicKey := ascii "Ab0_-9"
  pubkey := samplePubkey

theorem trimmed_of_ends {s : Bytes} {first last : UInt8} (hfirst : s.head? = some first)
    (hlast : s.getLast? = some last) (hspace : isSpace first = false ∧ isSpace last = false) :
    Trimmed s := by
  constructor
  · intro c hc
    rw [← Option.some.inj (hfirst.symm.trans hc)]
    exact hspace.1
  · intro c hc
    rw [← Option.some.inj (hlast.symm.trans hc)]
    exact hspace.2

theorem samplePubkey_text : PublicKeyText samplePubkey := by
  have hfirst : PlainText beginKey := ⟨trimmed_of_ends rfl rfl (by decide), by decide⟩
  have hbody : PlainText (ascii "MIIBCgKCAQEA") := ⟨trimmed_of_ends rfl rfl (by decide), by decide⟩
  have hlast : PlainText endKey := ⟨trimmed_of_ends rfl rfl (by decide), by decide⟩
  refine ⟨beginKey, [ascii "MIIBCgKCAQEA"], endKey, rfl, List.prefix_refl _, List.prefix_refl _,
    ?_, ?_⟩
  · intro line hline
    simp only [List.singleton_append, List.mem_cons, List.not_mem_nil, or_false] at hline
    rcases hline with rfl | rfl | rfl
    · exact ⟨hfirst, by decide⟩
    · exact ⟨hbody, by decide⟩
    · exact ⟨hlast, by decide⟩
  · intro line hline
    rw [List.mem_singleton.mp hline]
    exact ⟨⟨hbody.trimmed, by decide, by decide +kernel⟩, by decide⟩

theorem samplePeer_wellFormed {id hidden : Bytes} (hne : id ≠ [])
    (hid : ∀ c ∈ id, isNameByte c = true) : WellFormedPeer plainLibrary id (samplePeer hidden) where
  id_nonempty := hne
  id_bytes := hid
  gatewayhost := show PlainText (ascii "vpn.example.org") from
    ⟨trimmed_of_ends rfl rfl (by decide), by decide⟩
  port := ⟨655, by decide, by decide, rfl⟩
  networks n hn := by
    simp only [samplePeer, List.mem_cons, List.not_mem_nil, or_false] at hn
    rcases hn with rfl | rfl
    · exact ⟨⟨trimmed_of_ends rfl rfl (by decide), by decide⟩, by decide +kernel⟩
    · exact ⟨⟨trimmed_of_ends rfl rfl (by decide), by decide⟩, by decide +kernel⟩
  networks6 n hn := by cases hn
  pingtest := show PlainText (ascii "172.31.0.1") from
    ⟨trimmed_of_ends rfl rfl (by decide), by decide⟩
  pingtest6 := show PlainText [] from ⟨.nil, by decide⟩
  ed25519PublicKey := show PlainText (ascii "Ab0_-9") from
    ⟨trimmed_of_ends rfl rfl (by decide), by decide⟩
  pubkey := samplePubkey_text

def samplePeers : List (Bytes × BackendPeer) :=
  [(ascii "node2", samplePeer (ascii "1")), (ascii "node1", samplePeer (ascii "0"))]

theorem parserParseConfig_roundTrip_sample :
    ∃ sorted : List (Bytes × BackendPeer), sorted.Perm samplePeers ∧
      (sorted.map Prod.fst).Pairwise (fun a b => perlLe a b = true ∧ a ≠ b) ∧
      parserParseConfig plainLibrary (buildTextConfig samplePeers) =
        sorted.map fun q => receivedPeer q.1 q.2 := by
  refine parserParseConfig_roundTrip plainLibrary samplePeers (by decide) fun q hq => ?_
  simp only [samplePeers, List.mem_cons, List.not_mem_nil, or_false] at hq
  rcases hq with rfl | rfl
  · exact samplePeer_wellFormed (by decide) (by decide)
  · exact samplePeer_wellFormed (by decide) (by decide)

end ChaosVpn.BackendText
