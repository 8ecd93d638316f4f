import ChaosVpn.Settings
import ChaosVpn.PeerParser

/-! tinc_write_updown in tinc.c: the shell scripts tinc-up and tinc-down. Memory never
runs out, so text is lost only where formatting is undefined (`none`). -/

namespace ChaosVpn.RouteScript
open CStrings Libc AddrMask Settings PeerParser

/-- The macro COMMENT of the systems with a `/bin/sh`. -/
def comment : Bytes := ascii "# "

def tincCheckIfExcluded (config : Config) (peername : Bytes) : Bool :=
  match config.exclude with
  | none => false
  | some list => list.any fun
    | .string s => strcasecmp s peername
    | .integer _ => false

def concatF (libc : CLibrary) (format value : Bytes) : Option Bytes :=
  formatted libc format none [.str value]

/-- What a loop appends to the buffer. -/
def concatAll : List (Option Bytes) → Option Bytes
  | [] => some []
  | text :: texts => text.bind fun text => (concatAll texts).map (text ++ ·)

def vpnip (config : Config) : Family → Option Bytes
  | .inet => config.vpnIp
  | .inet6 => config.vpnIp6

def routecmd (config : Config) (up : Bool) : Family → Option Bytes
  | .inet => if up then config.routeadd else config.routedel
  | .inet6 => if up then config.routeadd6 else config.routedel6

/-- Routes of a family are written when there are an address and a command for it. -/
def hasRoutes (config : Config) (up : Bool) (family : Family) : Bool :=
  strIsNonempty (vpnip config family) && strIsNonempty (routecmd config up family)

def ifconfigLine (libc : CLibrary) (ifconfig vpnip : Option Bytes) : Option Bytes :=
  if strIsNonempty ifconfig && strIsNonempty vpnip then
    concatF libc (ascii "%s\n") (ifconfig.getD [])
  else some []

def scriptHead (libc : CLibrary) (config : Config) (up : Bool) : Option Bytes :=
  concatAll
    [some (ascii "#!/bin/sh\n"),
     some (comment ++ ascii "this is an autogenerated file - do not edit!\n\n"),
     if up then
       concatAll [ifconfigLine libc config.ifconfig config.vpnIp,
         ifconfigLine libc config.ifconfig6 config.vpnIp6, some (ascii "\n")]
     else some []]

def supernetLine (libc : CLibrary) (config : Config) (up : Bool) (net : AddrInfo) : Option Bytes :=
  if hasRoutes config up net.addrFamily then
    (concatF libc ((routecmd config up net.addrFamily).getD []) (addrmaskToString libc net)).map
      (· ++ ascii "\n")
  else some []

def supernetLines (libc : CLibrary) (config : Config) (up : Bool) : Option Bytes :=
  if config.mergeroutesSupernet = [] then some []
  else concatAll
    [some (comment ++ ascii "Mergeroute Supernets\n"),
     concatAll (config.mergeroutesSupernet.map (supernetLine libc config up)),
     some (ascii "\n")]

/-- The reason for which the route to a subnet is written as a comment. -/
def routeMark (libc : CLibrary) (config : Config) (subnet : Bytes) : Option Bytes :=
  let mergeFound := addrmaskMatch libc config.mergeroutesSupernet subnet
  let ignoreFound := addrmaskMatch libc config.ignoreSubnets subnet
  let whitelistFound := addrmaskMatch libc config.whitelistSubnets subnet
  if mergeFound.isSome then some (ascii "*merged* ")
  else if ignoreFound.isSome then some (ascii "*ignored* ")
  else if config.whitelistSubnets ≠ [] ∧ whitelistFound.isNone then
    some (ascii "*not whitelisted, ignored* ")
  else none

/-- What follows a `#` in the text of a subnet is its weight. -/
def subnetLine (libc : CLibrary) (config : Config) (routecmd text : Bytes) : Option Bytes :=
  let subnet := (strSplitAt hash text).1
  let mark := match routeMark libc config subnet with
    | some reason => comment ++ reason
    | none => []
  concatAll [some mark, concatF libc routecmd subnet, some (ascii "\n")]

def subnetLines (libc : CLibrary) (config : Config) (up : Bool) (family : Family)
    (network : List Bytes) : Option Bytes :=
  if hasRoutes config up family then
    concatAll (network.map (subnetLine libc config ((routecmd config up family).getD [])))
  else some []

def nodeLines (libc : CLibrary) (config : Config) (up : Bool) (peer : PeerConfig) : Option Bytes :=
  if peer.name = config.peerid then some []
  else if tincCheckIfExcluded config peer.name then
    concatF libc (comment ++ ascii "excluded node: %s\n") peer.name
  else concatAll
    [concatF libc (comment ++ ascii "node: %s\n") peer.name,
     subnetLines libc config up .inet peer.network,
     subnetLines libc config up .inet6 peer.network6]

def scriptFoot (config : Config) (up : Bool) : Bytes :=
  ascii "\n" ++ ascii "[ -x \"$0.local\" ] && \"$0.local\" \"$@\"\n" ++ ascii "\n" ++
    (if up ∧ strIsNonempty config.postup then config.postup.getD [] ++ ascii "\n" else []) ++
    ascii "\nexit 0\n\n"

/-- The arguments of fs_writecontents, whose success is the result of tinc_write_updown. -/
structure Written where
  path : Bytes
  contents : Bytes
  mode : Nat

def tincWriteUpdown (libc : CLibrary) (config : Config) (peerConfig : List PeerConfig) (up : Bool) :
    Option Written :=
  (concatAll
    [scriptHead libc config up,
     supernetLines libc config up,
     if config.useDynamicRoutes then some []
     else concatAll (peerConfig.map (nodeLines libc config up)),
     some (scriptFoot config up)]).map fun contents =>
      { path := config.basePath ++ ascii (if up then "/tinc-up" else "/tinc-down")
        contents := contents
        mode := 0o700 }

/-- The generated files begin with a comment and an empty line. -/
theorem autogenerated_eq :
    comment ++ ascii "this is an autogenerated file - do not edit!\n\n" =
      comment ++ ascii "this is an autogenerated file - do not edit!" ++ [lineFeed, lineFeed] := by
  rw [List.append_assoc]
  exact congrArg (comment ++ ·)
    (ascii_append "this is an autogenerated file - do not edit!" "\n\n")

/-! Concatenation -/

theorem concatAll_cons_eq_some {text : Option Bytes} {texts : List (Option Bytes)} {b : Bytes} :
    concatAll (text :: texts) = some b ↔
      ∃ first rest, text = some first ∧ concatAll texts = some rest ∧ b = first ++ rest := by
  rw [concatAll]
  cases text with
  | none => simp
  | some first => cases concatAll texts <;> simp [eq_comm]

theorem concatAll_cons (text : Option Bytes) (texts : List (Option Bytes)) :
    concatAll (text :: texts) = concatAll [text, concatAll texts] := by
  cases text with
  | none => rfl
  | some text => cases htexts : concatAll texts <;> simp [concatAll, htexts]

theorem concatAll_append (before after : List (Option Bytes)) :
    concatAll (before ++ after) = concatAll [concatAll before, concatAll after] := by
  induction before with
  | nil => cases hafter : concatAll after <;> simp [concatAll, hafter]
  | cons text before ih =>
    rw [List.cons_append, concatAll_cons, ih]
    cases text <;> cases hbefore : concatAll before <;> cases concatAll after <;>
      simp [concatAll, hbefore]

theorem concatAll_flatMap {α : Type} (write : α → List (Option Bytes)) (items : List α) :
    concatAll (items.flatMap write) = concatAll (items.map fun item => concatAll (write item)) := by
  induction items with
  | nil => rfl
  | cons item items ih =>
    rw [List.flatMap_cons, concatAll_append, ih, List.map_cons,
      concatAll_cons (concatAll (write item)) (items.map _)]

theorem isSome_concatAll {texts : List (Option Bytes)} :
    (concatAll texts).isSome = true ↔ ∀ text ∈ texts, text.isSome = true := by
  induction texts with
  | nil => simp [concatAll]
  | cons text texts ih =>
    rw [List.forall_mem_cons, ← ih, concatAll]
    cases text <;> simp

theorem concatAll_map {α : Type} {items : List α} {write : α → Option Bytes} {text : α → Bytes}
    (h : ∀ item ∈ items, write item = some (text item)) :
    concatAll (items.map write) = some (items.flatMap text) := by
  induction items with
  | nil => rfl
  | cons item items ih =>
    rw [List.map_cons, concatAll, h item (by simp), ih fun i hi => h i (by simp [hi])]
    rfl

/-- A loop that passes over some items. -/
theorem flatMap_kept {α β : Type} (keep : α → Bool) (write : α → β) (items : List α) :
    (items.flatMap fun item => if keep item then [write item] else []) =
      (items.filter keep).map write := by
  induction items with
  | nil => rfl
  | cons item items ih =>
    rw [List.flatMap_cons, ih, List.filter_cons]
    cases keep item <;> rfl

end ChaosVpn.RouteScript
