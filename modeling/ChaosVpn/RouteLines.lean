import ChaosVpn.RouteScript

/-! tinc-up and tinc-down as lines. tinc_write_updown writes these lines between head
and foot when routes are static and every family has an address and both commands. -/

namespace ChaosVpn.RouteLines
open CStrings Libc AddrMask Settings PeerParser RouteScript

/-- A route command with its one `%s`. -/
structure Template where
  before : Bytes
  after : Bytes
  before_percent : percent ∉ before
  after_percent : percent ∉ after
  before_lineFeed : lineFeed ∉ before
  after_lineFeed : lineFeed ∉ after

def Template.format (template : Template) : Bytes := template.before ++ ascii "%s" ++ template.after

def Template.command (template : Template) (subnet : Bytes) : Bytes :=
  template.before ++ subnet ++ template.after

inductive Line
  | comment (text : Bytes)
  | blank
  | route (command : Bytes)

def Line.written : Line → Bytes
  | comment text => RouteScript.comment ++ text ++ [lineFeed]
  | blank => [lineFeed]
  | route command => command ++ [lineFeed]

def Line.command : Line → Option Bytes
  | route command => some command
  | _ => none

@[simp] theorem Line.command_comment (text : Bytes) : (comment text).command = none := rfl

@[simp] theorem Line.command_blank : blank.command = none := rfl

@[simp] theorem Line.command_route (text : Bytes) : (route text).command = some text := rfl

def networks (peer : PeerConfig) : Family → List Bytes
  | .inet => peer.network
  | .inet6 => peer.network6

/-! The scripts as lines -/

def supernetScript (libc : CLibrary) (config : Config) (templates : Family → Template) :
    List Line :=
  if config.mergeroutesSupernet = [] then []
  else .comment (ascii "Mergeroute Supernets") ::
    (config.mergeroutesSupernet.map fun net =>
      .route ((templates net.addrFamily).command (addrmaskToString libc net))) ++ [.blank]

def subnetScript (libc : CLibrary) (config : Config) (template : Template) (subnet : Bytes) :
    Line :=
  match routeMark libc config subnet with
  | some reason => .comment (reason ++ template.command subnet)
  | none => .route (template.command subnet)

def nodeScript (libc : CLibrary) (config : Config) (templates : Family → Template)
    (peer : PeerConfig) : List Line :=
  if peer.name = config.peerid then []
  else if tincCheckIfExcluded config peer.name then
    [.comment (ascii "excluded node: " ++ peer.name)]
  else .comment (ascii "node: " ++ peer.name) ::
    [Family.inet, Family.inet6].flatMap fun family =>
      (networks peer family).map (subnetScript libc config (templates family))

def script (libc : CLibrary) (config : Config) (templates : Family → Template)
    (peers : List PeerConfig) : List Line :=
  supernetScript libc config templates ++ peers.flatMap (nodeScript libc config templates)

/-! The model writes these lines -/

variable {libc : CLibrary} {config : Config} {templates : Family → Template} {up : Bool}

theorem concatF_format (template : Template) (subnet : Bytes) :
    concatF libc template.format subnet = some (template.command subnet) :=
  formatted_str template.before_percent template.after_percent

theorem hasRoutes_of_format (hvpnip : ∀ family, strIsNonempty (vpnip config family) = true)
    (hroutecmd : ∀ family, routecmd config up family = some (templates family).format)
    (family : Family) : hasRoutes config up family = true := by
  rw [hasRoutes, hvpnip family, Bool.true_and, hroutecmd family, strIsNonempty_iff]
  exact ⟨_, rfl, by simp [Template.format, ascii]⟩

theorem concatF_comment (libc : CLibrary) {label : Bytes} (value : Bytes)
    (hlabel : percent ∉ label) :
    concatF libc (comment ++ label ++ ascii "%s\n") value =
      some (Line.comment (label ++ value)).written := by
  have hbefore : percent ∉ comment ++ label := by
    rw [List.mem_append, not_or]
    exact ⟨by decide, hlabel⟩
  have hformat : concatF libc (comment ++ label ++ ascii "%s" ++ [lineFeed]) value =
      some (comment ++ label ++ value ++ [lineFeed]) := formatted_str hbefore (by decide)
  rw [Line.written, ← List.append_assoc, ← hformat, List.append_assoc _ _ [lineFeed]]
  rfl

section Written

variable (hvpnip : ∀ family, strIsNonempty (vpnip config family) = true)
  (hroutecmd : ∀ family, routecmd config up family = some (templates family).format)
include hvpnip hroutecmd

theorem supernetLine_written (net : AddrInfo) :
    supernetLine libc config up net =
      some (Line.route ((templates net.addrFamily).command
        (addrmaskToString libc net))).written := by
  rw [supernetLine, if_pos (hasRoutes_of_format hvpnip hroutecmd _), hroutecmd, Option.getD_some,
    concatF_format]
  rfl

theorem supernetLines_written :
    supernetLines libc config up =
      some ((supernetScript libc config templates).flatMap Line.written) := by
  unfold supernetLines supernetScript
  split
  · rfl
  · rw [concatAll_map fun net _ => supernetLine_written hvpnip hroutecmd net]
    simp [concatAll, List.flatMap_append, List.flatMap_map, Line.written, ascii, comment]

theorem subnetLines_written {family : Family} {network : List Bytes}
    (hweight : ∀ text ∈ network, hash ∉ text) :
    subnetLines libc config up family network =
      some ((network.map (subnetScript libc config (templates family))).flatMap Line.written) := by
  rw [subnetLines, if_pos (hasRoutes_of_format hvpnip hroutecmd _), hroutecmd, Option.getD_some,
    List.flatMap_map]
  refine concatAll_map fun text htext => ?_
  have hsubnet : strSplitAt hash text = (text, none) :=
    strSplitAt_none.mpr ⟨rfl, hweight text htext⟩
  rw [subnetLine, hsubnet, concatF_format, subnetScript]
  cases routeMark libc config text <;> simp [concatAll, Line.written, ascii]

theorem nodeLines_written {peer : PeerConfig}
    (hweight : ∀ family, ∀ text ∈ networks peer family, hash ∉ text) :
    nodeLines libc config up peer =
      some ((nodeScript libc config templates peer).flatMap Line.written) := by
  unfold nodeLines nodeScript
  split
  · rfl
  · split
    · rw [List.flatMap_singleton, ← concatF_comment libc peer.name (by decide)]
      rfl
    · have hnode : concatF libc (comment ++ ascii "node: %s\n") peer.name = _ :=
        concatF_comment libc peer.name (show percent ∉ ascii "node: " by decide)
      have hinet : subnetLines libc config up .inet peer.network = _ :=
        subnetLines_written hvpnip hroutecmd (hweight .inet)
      have hinet6 : subnetLines libc config up .inet6 peer.network6 = _ :=
        subnetLines_written hvpnip hroutecmd (hweight .inet6)
      rw [hnode, hinet, hinet6]
      simp [concatAll]
      rfl

theorem tincWriteUpdown_written {peers : List PeerConfig} {head : Bytes}
    (hstatic : config.useDynamicRoutes = false)
    (hweight : ∀ peer ∈ peers, ∀ family, ∀ text ∈ networks peer family, hash ∉ text)
    (hhead : scriptHead libc config up = some head) :
    tincWriteUpdown libc config peers up =
      some ⟨config.basePath ++ ascii (if up then "/tinc-up" else "/tinc-down"),
        head ++ (script libc config templates peers).flatMap Line.written ++ scriptFoot config up,
        0o700⟩ := by
  rw [tincWriteUpdown, hhead, supernetLines_written hvpnip hroutecmd, hstatic,
    if_neg Bool.false_ne_true,
    concatAll_map fun peer hpeer => nodeLines_written hvpnip hroutecmd (hweight peer hpeer)]
  simp [concatAll, script, List.flatMap_append, List.flatMap_assoc]

end Written

end ChaosVpn.RouteLines
