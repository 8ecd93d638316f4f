import ChaosVpn.ParserHeap
import ChaosVpn.PeerParser

/-! parser.c on its memory. A text is read and written as a whole, a list is walked through
its links; the loops have a bound, and running out of it is an outcome of its own. -/

namespace ChaosVpn.ParserMemory
open CStrings Blocks Behaviour LinkedNodes ChaosVpn.Lists ListRuns ListLoops Ownership ParserHeap
open Libc AddrMask
open PeerParser (PeerConfig ParserState headerName parserCheckConfigitem parserLines parsePort
  beginKey endKey tincDefaultPort)

/-! Accesses through pointers -/

def strdup (h : Heap) (s : Bytes) : Nat × Heap := malloc h (.text (s.length + 1) s)

def loadText (h : Heap) (p : Nat) : Behaviour Bytes := do
  match ← load h p with
  | .text _ s => return s
  | _ => outside

def loadStringList (h : Heap) (p : Nat) : Behaviour Nat := do
  match ← load h p with
  | .stringList text => return text
  | _ => outside

def loadPeerConfigList (h : Heap) (p : Nat) : Behaviour Nat := do
  match ← load h p with
  | .peerConfigList peer => return peer
  | _ => outside

def loadPeerConfig (h : Heap) (p : Nat) : Behaviour PeerStruct := do
  match ← load h p with
  | .peerConfig r => return r
  | _ => outside

/-- The new text has to fit, with the NUL byte behind it. -/
def strcat (h : Heap) (p : Nat) (s : Bytes) : Behaviour Heap := do
  match ← load h p with
  | .text size old =>
    if old.length + s.length < size then store h p (.text size (old ++ s)) else outside
  | _ => outside

/-- The block is taken to move. -/
def realloc (h : Heap) (p size : Nat) : Behaviour (Nat × Heap) := do
  let s ← loadText h p
  let h ← free h p
  return malloc h (.text size s)

/-- container_of: every entry of a list is in a block of its own. -/
def containerOf : Option Link → Behaviour Nat
  | some x => returns x.1
  | none => outside

/-! Texts of a peer -/

/-- A pointer of a peer is set to a copy. -/
def setText (h : Heap) (p : Nat) (f : Field) (s : Bytes) : Behaviour Heap := do
  let (text, h) := strdup h s
  let r ← loadPeerConfig h p
  store h p (.peerConfig { r with texts := Function.update r.texts f text })

def parserReplaceItem (h : Heap) (p : Nat) (f : Field) (newitem : Bytes) : Behaviour Heap := do
  let r ← loadPeerConfig h p
  let h ← free h (r.texts f)
  setText h p f newitem

def parserExtendKey (h : Heap) (p : Nat) (line : Bytes) : Behaviour Heap := do
  let r ← loadPeerConfig h p
  let key ← loadText h (r.texts .key)
  let (moved, h) ← realloc h (r.texts .key) (key.length + line.length + 2)
  let h ← store h p (.peerConfig { r with texts := Function.update r.texts .key moved })
  let h ← strcat h moved line
  strcat h moved [lineFeed]

/-- The key of the BEGIN line, in a block with room for that line and its end. -/
def parserBeginKey (h : Heap) (p : Nat) (line : Bytes) : Behaviour Heap := do
  let r ← loadPeerConfig h p
  let h ← free h (r.texts .key)
  let (key, h) := malloc h (.text (line.length + 2) line)
  let h ← store h p (.peerConfig { r with texts := Function.update r.texts .key key })
  strcat h key [lineFeed]

/-! Lists of texts -/

def parserStringlist (h : Heap) (item : Bytes) : Behaviour (Link × Heap) := do
  let (i, h) := malloc h (.stringList 0)
  let (text, h) := strdup h item
  let h ← store h i (.stringList text)
  return ((i, .list), h)

/-- list_add_tail(parser_stringlist(item), list) -/
def addStringlist (h : Heap) (item : Bytes) (list : Link) : Behaviour Heap := do
  let (i, h) ← parserStringlist h item
  onNodes h (listAddTail · (some i) (some list))

def parserDeleteStringList (fuel : Nat) (h : Heap) (list : Link) : Behaviour Heap :=
  listForEachSafe Heap.nodes (some list) (fun h i => do
    let item ← containerOf i
    let text ← loadStringList h item
    let h ← free h text
    let h ← onNodes h (listDel · i)
    free h item) fuel h

def equals : UInt8 := 61

/-- The token of strtok_r() up to a '='. -/
def warnLabel (line : Bytes) : Option Bytes :=
  let line := line.dropWhile (· == equals)
  if line.isEmpty then none else some (line.takeWhile (· != equals))

def parserWarnUnknown (fuel : Nat) (h : Heap) (line : Bytes) : Behaviour Heap :=
  match warnLabel line with
  | none => returns h
  | some label => do
    let known ← listForEach h.nodes (some doneUnknownWarnings) (fun (_ : Unit) ptr => do
      let si ← containerOf ptr
      let text ← loadText h (← loadStringList h si)
      return if strcasecmp label text then .inr () else .inl ()) fuel ()
    match known with
    | .inr _ => return h
    | .inl _ => addStringlist h label doneUnknownWarnings

/-! Peers -/

def fields : List Field :=
  [.name, .gatewayhost, .owner, .key, .ed25519publickey, .cipher, .compression, .digest]

def defaults : Plain where
  useTcpOnly := false
  hidden := false
  silent := false
  port := tincDefaultPort
  indirectdata := false
  primary := false

def parserCreateConfig (h : Heap) (name : Bytes) : Behaviour (Nat × Heap) := do
  let (p, h) := malloc h (.peerConfig ⟨fun _ => 0, defaults⟩)
  let h ← subnetLists.foldlM (fun h s => onNodes h (initListHead · (some (p, .subnets s)))) h
  let h ← fields.foldlM (fun h f => setText h p f (if f = .name then name else [])) h
  return (p, h)

def parserFreePeerConfig (fuel : Nat) (h : Heap) (p : Nat) : Behaviour Heap := do
  let r ← loadPeerConfig h p
  let h ← fields.foldlM (fun h f => free h (r.texts f)) h
  subnetLists.foldlM (fun h s => parserDeleteStringList fuel h (p, .subnets s)) h

def parserFreeConfig (fuel : Nat) (h : Heap) : Behaviour Heap :=
  listForEachSafe Heap.nodes (some configlist) (fun h i => do
    let item ← containerOf i
    let peer ← loadPeerConfigList h item
    let h ← parserFreePeerConfig fuel h peer
    let h ← free h peer
    let h ← onNodes h (listDel · i)
    free h item) fuel h

/-! Lines -/

inductive Effect
  | replace (f : Field)
  | subnet (family : Family) (s : Subnets)
  | set (change : Bytes → Plain → Plain)
  | ignore

def configItems : List (Bytes × Effect) :=
  [(ascii "gatewayhost=", .replace .gatewayhost),
   (ascii "owner=", .replace .owner),
   (ascii "use-tcp-only=", .set fun item p => { p with useTcpOnly := strIsTrue item false }),
   (ascii "network=", .subnet .inet .network),
   (ascii "network6=", .subnet .inet6 .network6),
   (ascii "route_network=", .subnet .inet .routeNetwork),
   (ascii "route_network6=", .subnet .inet6 .routeNetwork6),
   (ascii "hidden=", .set fun item p => { p with hidden := strIsTrue item false }),
   (ascii "silent=", .set fun item p => { p with silent := strIsTrue item false }),
   (ascii "port=", .set fun item p => { p with port := parsePort p.port item }),
   (ascii "indirectdata=", .set fun item p => { p with indirectdata := strIsTrue item false }),
   (ascii "cipher=", .replace .cipher),
   (ascii "compression=", .replace .compression),
   (ascii "digest=", .replace .digest),
   (ascii "primary=", .set fun item p => { p with primary := strIsTrue item false }),
   (ascii "ed25519publickey=", .replace .ed25519publickey),
   (ascii "pingtest=", .ignore)]

def apply (libc : CLibrary) (h : Heap) (p : Nat) (item : Bytes) : Effect → Behaviour Heap
  | .replace f => parserReplaceItem h p f item
  | .subnet family s =>
    if addrmaskVerifySubnet libc item (some family) then addStringlist h item (p, .subnets s)
    else returns h
  | .set change => do
    let r ← loadPeerConfig h p
    store h p (.peerConfig { r with plain := change item r.plain })
  | .ignore => returns h

/-- The static variables. -/
structure Statics where
  myConfig : Option Nat
  parseKeyMode : Bool

def parseKeyLine (fuel : Nat) (h : Heap) (p : Nat) (line : Bytes) (keyMode : Bool) :
    Behaviour (Bool × Heap) := do
  if (parserCheckConfigitem line beginKey).isSome then return (true, ← parserBeginKey h p line)
  else if (parserCheckConfigitem line endKey).isSome then
    return (false, ← parserExtendKey h p line)
  else if keyMode then return (true, ← parserExtendKey h p line)
  else return (false, ← parserWarnUnknown fuel h line)

def parseItem (libc : CLibrary) (fuel : Nat) (h : Heap) (p : Nat) (line : Bytes) (keyMode : Bool) :
    Behaviour (Bool × Heap) :=
  let found := configItems.findSome? fun (config, effect) =>
    (parserCheckConfigitem line config).map fun item => (effect, item)
  match found with
  | some (effect, item) => do return (keyMode, ← apply libc h p item effect)
  | none => parseKeyLine fuel h p line keyMode

/-- A header line: a peer of its own at the end of the list. -/
def parserHeader (h : Heap) (name : Bytes) : Behaviour (Statics × Heap) := do
  let (item, h) := malloc h (.text (name.length + 1) name)
  let (i, h) := malloc h (.peerConfigList 0)
  let (p, h) ← parserCreateConfig h (← loadText h item)
  let h ← store h i (.peerConfigList p)
  let h ← onNodes h (listAddTail · (some (i, .list)) (some configlist))
  let h ← free h item
  return (⟨some p, false⟩, h)

def parserParseLine (libc : CLibrary) (fuel : Nat) (st : Statics) (h : Heap) (token : Bytes) :
    Behaviour (Statics × Heap) := do
  let line := strTrim token
  match headerName line, st.myConfig with
  | some name, _ => parserHeader h name
  | none, none => return (st, h)
  | none, some p =>
    let (keyMode, h) ← parseItem libc fuel h p line st.parseKeyMode
    return ({ st with parseKeyMode := keyMode }, h)

/-- parser_parse_config for the list of config. -/
def parserParseConfig (libc : CLibrary) (fuel : Nat) (h : Heap) (data : Bytes) : Behaviour Heap := do
  let h ← onNodes h (initListHead · (some doneUnknownWarnings))
  let (copy, h) := strdup h (cstr data)
  let text ← loadText h copy
  let (_, h) ← (parserLines text).foldlM (fun (st, h) token => parserParseLine libc fuel st h token)
    (⟨none, false⟩, h)
  let h ← free h copy
  parserDeleteStringList fuel h doneUnknownWarnings

end ChaosVpn.ParserMemory
