import ChaosVpn.AddrMask

/-! parser.c: the text of peer sections. Memory never runs out, so parsing always
succeeds; warnings about unknown lines are only logged. -/

namespace ChaosVpn.PeerParser
open CStrings Libc AddrMask

structure PeerConfig where
  name : Bytes
  gatewayhost : Bytes
  owner : Bytes
  network : List Bytes
  network6 : List Bytes
  routeNetwork : List Bytes
  routeNetwork6 : List Bytes
  hidden : Bool
  silent : Bool
  port : Nat
  key : Bytes
  ed25519publickey : Bytes
  cipher : Bytes
  compression : Bytes
  digest : Bytes
  primary : Bool
  useTcpOnly : Bool
  indirectdata : Bool
  deriving DecidableEq

def tincDefaultPort : Nat := 665

def parserCreateConfig (name : Bytes) : PeerConfig :=
  { name, gatewayhost := [], owner := [], network := [], network6 := [], routeNetwork := [],
    routeNetwork6 := [], hidden := false, silent := false, port := tincDefaultPort, key := [],
    ed25519publickey := [], cipher := [], compression := [], digest := [], primary := false,
    useTcpOnly := false, indirectdata := false }

/-- The peer of the last header is `myConfig`, the ones before it are complete. -/
structure ParserState where
  complete : List PeerConfig
  myConfig : Option PeerConfig
  parseKeyMode : Bool

def peers (st : ParserState) : List PeerConfig := st.complete ++ st.myConfig.toList

def parserCheckConfigitem (line config : Bytes) : Option Bytes :=
  if strncasecmp line config config.length then some (line.drop config.length) else none

/-- A subnet that is not one of the family is logged and left out. -/
def addSubnet (libc : CLibrary) (family : Family) (list : List Bytes) (item : Bytes) : List Bytes :=
  if addrmaskVerifySubnet libc item (some family) then list ++ [item] else list

def parsePort (port : Nat) (item : Bytes) : Nat :=
  if strtoul item ≠ ulongMax then strtoul item % 65536 else port

/-- The items of a section and what they do, in the order in which they are tried. -/
def configItems (libc : CLibrary) : List (Bytes × (Bytes → PeerConfig → PeerConfig)) :=
  [(ascii "gatewayhost=", fun item p => { p with gatewayhost := item }),
   (ascii "owner=", fun item p => { p with owner := item }),
   (ascii "use-tcp-only=", fun item p => { p with useTcpOnly := strIsTrue item false }),
   (ascii "network=", fun item p => { p with network := addSubnet libc .inet p.network item }),
   (ascii "network6=", fun item p =>
     { p with network6 := addSubnet libc .inet6 p.network6 item }),
   (ascii "route_network=", fun item p =>
     { p with routeNetwork := addSubnet libc .inet p.routeNetwork item }),
   (ascii "route_network6=", fun item p =>
     { p with routeNetwork6 := addSubnet libc .inet6 p.routeNetwork6 item }),
   (ascii "hidden=", fun item p => { p with hidden := strIsTrue item false }),
   (ascii "silent=", fun item p => { p with silent := strIsTrue item false }),
   (ascii "port=", fun item p => { p with port := parsePort p.port item }),
   (ascii "indirectdata=", fun item p => { p with indirectdata := strIsTrue item false }),
   (ascii "cipher=", fun item p => { p with cipher := item }),
   (ascii "compression=", fun item p => { p with compression := item }),
   (ascii "digest=", fun item p => { p with digest := item }),
   (ascii "primary=", fun item p => { p with primary := strIsTrue item false }),
   (ascii "ed25519publickey=", fun item p => { p with ed25519publickey := item }),
   (ascii "pingtest=", fun _ p => p)]

def beginKey : Bytes := ascii "-----BEGIN RSA PUBLIC KEY-----"
def endKey : Bytes := ascii "-----END RSA PUBLIC KEY-----"

def parserExtendKey (line : Bytes) (p : PeerConfig) : PeerConfig :=
  { p with key := p.key ++ line ++ [lineFeed] }

/-- A line that is none of the items: part of a key, or unknown. -/
def parseKeyLine (line : Bytes) (p : PeerConfig) (keyMode : Bool) : PeerConfig × Bool :=
  if (parserCheckConfigitem line beginKey).isSome then ({ p with key := line ++ [lineFeed] }, true)
  else if (parserCheckConfigitem line endKey).isSome then (parserExtendKey line p, false)
  else if keyMode then (parserExtendKey line p, true)
  else (p, false)

def parseItem (libc : CLibrary) (line : Bytes) (p : PeerConfig) (keyMode : Bool) :
    PeerConfig × Bool :=
  let found := (configItems libc).findSome? fun (config, store) =>
    (parserCheckConfigitem line config).map store
  match found with
  | some store => (store p, keyMode)
  | none => parseKeyLine line p keyMode

/-- The name in a trimmed `[name]` line. -/
def headerName (line : Bytes) : Option Bytes :=
  if 2 ≤ line.length ∧ line.head? = some 91 ∧ line.getLast? = some 93 then
    some ((line.drop 1).take (line.length - 2))
  else none

/-- Lines in front of the first header are skipped. -/
def parserParseLine (libc : CLibrary) (st : ParserState) (token : Bytes) : ParserState :=
  let line := strTrim token
  match headerName line, st.myConfig with
  | some name, _ =>
    { complete := peers st, myConfig := some (parserCreateConfig name), parseKeyMode := false }
  | none, none => st
  | none, some p =>
    { st with
      myConfig := some (parseItem libc line p st.parseKeyMode).1
      parseKeyMode := (parseItem libc line p st.parseKeyMode).2 }

/-- The tokens between line feeds, of which strtok_r() never gives an empty one. -/
def parserLines (data : Bytes) : List Bytes :=
  ((cstr data).splitOn lineFeed).filter fun token => !token.isEmpty && token.head? != some hash

/-- The peers that are appended to the caller's list. -/
def parserParseConfig (libc : CLibrary) (data : Bytes) : List PeerConfig :=
  peers ((parserLines data).foldl (parserParseLine libc) ⟨[], none, false⟩)

theorem mem_of_mem_strTrim {s : Bytes} {c : UInt8} (h : c ∈ strTrim s) : c ∈ s := by
  have hskip := (List.dropWhile_suffix isSpace).subset (List.mem_reverse.mp h)
  exact (List.dropWhile_suffix isSpace).subset (List.mem_reverse.mp hskip)

theorem mem_token_of_headerName {token name : Bytes} {c : UInt8}
    (hname : headerName (strTrim token) = some name) (hc : c ∈ name) : c ∈ token := by
  unfold headerName at hname
  split at hname
  · rw [← Option.some.inj hname] at hc
    exact mem_of_mem_strTrim (List.mem_of_mem_drop (List.mem_of_mem_take hc))
  · cases hname

/-! What a line leaves alone -/

variable {libc : CLibrary}

theorem mem_addSubnet_iff {family : Family} {list : List Bytes} {item subnet : Bytes} :
    subnet ∈ addSubnet libc family list item ↔
      subnet ∈ list ∨ subnet = item ∧ addrmaskVerifySubnet libc item (some family) = true := by
  unfold addSubnet
  split <;> simp [*]

/-- Every line leaves the peers of earlier sections and adds one or changes the last. -/
theorem peers_parserParseLine (st : ParserState) (token : Bytes) :
    peers (parserParseLine libc st token) =
      match headerName (strTrim token), st.myConfig with
      | some name, _ => peers st ++ [parserCreateConfig name]
      | none, none => peers st
      | none, some p => st.complete ++ [(parseItem libc (strTrim token) p st.parseKeyMode).1] := by
  cases hname : headerName (strTrim token) <;> cases hmy : st.myConfig <;>
    simp [parserParseLine, peers, hname, hmy]

/-- What every stored item and every key line keeps, the parsed line keeps. -/
theorem parseItem_keeps {P : PeerConfig → Prop} {line : Bytes} {p : PeerConfig} {keyMode : Bool}
    (hitems : ∀ entry ∈ configItems libc, ∀ item, P (entry.2 item p))
    (hkey : ∀ key, P { p with key }) (hp : P p) : P (parseItem libc line p keyMode).1 := by
  unfold parseItem
  dsimp only
  split
  · rename_i store hfound
    obtain ⟨entry, hentry, hstore⟩ := List.exists_of_findSome?_eq_some hfound
    obtain ⟨item, -, rfl⟩ := Option.map_eq_some_iff.mp hstore
    exact hitems entry hentry item
  · unfold parseKeyLine parserExtendKey
    split
    · exact hkey _
    · split
      · exact hkey _
      · split
        · exact hkey _
        · exact hp

theorem name_configItem {entry : Bytes × (Bytes → PeerConfig → PeerConfig)}
    (h : entry ∈ configItems libc) (item : Bytes) (p : PeerConfig) :
    (entry.2 item p).name = p.name := by
  revert entry
  simp [configItems]

/-- The networks change at their own items only. -/
theorem configItem_subnets {entry : Bytes × (Bytes → PeerConfig → PeerConfig)}
    (h : entry ∈ configItems libc) (item : Bytes) (p : PeerConfig) :
    (entry.2 item p).network =
        (if entry.1 = ascii "network=" then addSubnet libc .inet p.network item else p.network) ∧
      (entry.2 item p).network6 =
        if entry.1 = ascii "network6=" then addSubnet libc .inet6 p.network6 item
        else p.network6 := by
  revert entry
  simp only [configItems, List.forall_mem_cons, List.not_mem_nil, false_imp_iff, implies_true,
    and_true]
  and_intros <;> rfl

theorem name_parseItem (line : Bytes) (p : PeerConfig) (keyMode : Bool) :
    (parseItem libc line p keyMode).1.name = p.name :=
  parseItem_keeps (P := fun p' => p'.name = p.name) (fun _ h item => name_configItem h item p)
    (fun _ => rfl) rfl

/-- The sections of a text: the names in its header lines. -/
def sectionNames (data : Bytes) : List Bytes :=
  (parserLines data).filterMap fun token => headerName (strTrim token)

theorem names_parserParseLine (st : ParserState) (token : Bytes) :
    (peers (parserParseLine libc st token)).map (·.name) =
      (peers st).map (·.name) ++ (headerName (strTrim token)).toList := by
  rw [peers_parserParseLine]
  cases headerName (strTrim token) with
  | some name => simp [parserCreateConfig]
  | none => cases h : st.myConfig <;> simp [peers, h, name_parseItem]

/-- Every section gives one peer, in the order of the text. -/
theorem names_parserParseConfig (data : Bytes) :
    (parserParseConfig libc data).map (·.name) = sectionNames data := by
  have hlines : ∀ (tokens : List Bytes) (st : ParserState),
      (peers (tokens.foldl (parserParseLine libc) st)).map (·.name) =
        (peers st).map (·.name) ++ tokens.filterMap fun token => headerName (strTrim token) := by
    intro tokens
    induction tokens with
    | nil => simp
    | cons token tokens ih =>
      intro st
      rw [List.foldl_cons, ih, names_parserParseLine, List.filterMap_cons]
      cases headerName (strTrim token) <;> simp
  exact hlines (parserLines data) ⟨[], none, false⟩

theorem mem_sectionNames_iff {data name : Bytes} :
    name ∈ sectionNames data ↔ ∃ p ∈ parserParseConfig libc data, p.name = name := by
  rw [← names_parserParseConfig, List.mem_map]

/-! What holds of every parsed peer -/

/-- A property of new peers that every item keeps holds of all parsed ones. -/
theorem forall_parserParseConfig {P : PeerConfig → Prop} {data : Bytes}
    (hcreate : ∀ token ∈ parserLines data, ∀ name, headerName (strTrim token) = some name →
      P (parserCreateConfig name))
    (hitems : ∀ entry ∈ configItems libc, ∀ item p, P p → P (entry.2 item p))
    (hkey : ∀ p key, P p → P { p with key }) : ∀ p ∈ parserParseConfig libc data, P p := by
  have hlines : ∀ tokens : List Bytes, (∀ token ∈ tokens, token ∈ parserLines data) →
      ∀ st : ParserState, (∀ p ∈ peers st, P p) →
        ∀ p ∈ peers (tokens.foldl (parserParseLine libc) st), P p := by
    intro tokens
    induction tokens with
    | nil => exact fun _ _ hst => hst
    | cons token tokens ih =>
      intro htokens st hst
      refine ih (fun t ht => htokens t (by simp [ht])) _ ?_
      rw [peers_parserParseLine]
      cases hname : headerName (strTrim token) with
      | some name =>
        intro p hp
        rcases List.mem_append.mp hp with hp | hp
        · exact hst p hp
        · exact List.mem_singleton.mp hp ▸ hcreate token (htokens token (by simp)) name hname
      | none =>
        cases hmy : st.myConfig with
        | none => exact hst
        | some p₀ =>
          have hp₀ : P p₀ := hst p₀ (by simp [peers, hmy])
          intro p hp
          rcases List.mem_append.mp hp with hp | hp
          · exact hst p (by simp [peers, hp])
          · rw [List.mem_singleton.mp hp]
            exact parseItem_keeps (fun entry h item => hitems entry h item p₀ hp₀)
              (fun key => hkey p₀ key hp₀) hp₀
  exact hlines _ (fun _ h => h) ⟨[], none, false⟩ (by simp [peers])

end ChaosVpn.PeerParser
