import ChaosVpn.RouteLines
import ChaosVpn.SubnetMatch

/-! The routes of tinc-up and tinc-down: the uncommented route commands are those to the
merged networks and to the networks that are kept, in one order for both scripts. -/

namespace ChaosVpn.RouteSequence
open CStrings Libc TextLines AddrMask SubnetMatch Settings PeerParser RouteScript RouteLines

/-- Neither merged nor ignored, and whitelisted if there is a whitelist. -/
def Kept (libc : CLibrary) (config : Config) (subnet : Bytes) : Prop :=
  (addrmaskMatch libc config.mergeroutesSupernet subnet).isNone = true ∧
    (addrmaskMatch libc config.ignoreSubnets subnet).isNone = true ∧
      (config.whitelistSubnets ≠ [] →
        (addrmaskMatch libc config.whitelistSubnets subnet).isSome = true)

instance (libc : CLibrary) (config : Config) (subnet : Bytes) :
    Decidable (Kept libc config subnet) :=
  inferInstanceAs (Decidable (_ ∧ _ ∧ (_ → _)))

def routedPeers (config : Config) (peers : List PeerConfig) : List PeerConfig :=
  peers.filter fun peer =>
    peer.name ≠ config.peerid && !tincCheckIfExcluded config peer.name

/-- Where the routes go, whether they are added or deleted. -/
def destinations (libc : CLibrary) (config : Config) (peers : List PeerConfig) :
    List (Family × Bytes) :=
  (config.mergeroutesSupernet.map fun net => (net.addrFamily, addrmaskToString libc net)) ++
    (routedPeers config peers).flatMap fun peer =>
      [Family.inet, Family.inet6].flatMap fun family =>
        ((networks peer family).filter (Kept libc config ·)).map (family, ·)

def routes (libc : CLibrary) (config : Config) (templates : Family → Template)
    (peers : List PeerConfig) : List Bytes :=
  (destinations libc config peers).map fun (family, subnet) => (templates family).command subnet

variable {libc : CLibrary} {config : Config} {templates : Family → Template} {up : Bool}

/-! The route commands among the lines -/

theorem routeMark_eq_none_iff {subnet : Bytes} :
    routeMark libc config subnet = none ↔ Kept libc config subnet := by
  unfold routeMark Kept
  cases addrmaskMatch libc config.mergeroutesSupernet subnet <;>
    cases addrmaskMatch libc config.ignoreSubnets subnet <;>
    cases addrmaskMatch libc config.whitelistSubnets subnet <;> simp

theorem command_subnetScript (template : Template) (subnet : Bytes) :
    (subnetScript libc config template subnet).command =
      if Kept libc config subnet then some (template.command subnet) else none := by
  rw [subnetScript]
  cases hmark : routeMark libc config subnet with
  | none => rw [if_pos (routeMark_eq_none_iff.mp hmark), Line.command_route]
  | some reason =>
    have hmarked : ¬ Kept libc config subnet := fun hkept => by
      simp [routeMark_eq_none_iff.mpr hkept] at hmark
    rw [if_neg hmarked, Line.command_comment]

theorem commands_supernetScript :
    (supernetScript libc config templates).filterMap Line.command =
      config.mergeroutesSupernet.map fun net =>
        (templates net.addrFamily).command (addrmaskToString libc net) := by
  unfold supernetScript
  split
  · rename_i hempty
    simp [hempty]
  · simp [List.filterMap_cons, List.filterMap_append, Function.comp_def]

theorem commands_subnetScripts (template : Template) (network : List Bytes) :
    (network.filterMap fun subnet => (subnetScript libc config template subnet).command) =
      (network.filter (Kept libc config ·)).map template.command := by
  induction network with
  | nil => rfl
  | cons subnet network ih =>
    rw [List.filterMap_cons, command_subnetScript, ih, List.filter_cons]
    by_cases hkept : Kept libc config subnet <;> simp [hkept]

theorem commands_nodeScript (peer : PeerConfig) :
    (nodeScript libc config templates peer).filterMap Line.command =
      if peer.name ≠ config.peerid && !tincCheckIfExcluded config peer.name then
        [Family.inet, Family.inet6].flatMap fun family =>
          ((networks peer family).filter (Kept libc config ·)).map (templates family).command
      else [] := by
  unfold nodeScript
  split
  · rename_i hself
    simp [hself]
  · rename_i hself
    split
    · rename_i hexcluded
      simp [hexcluded]
    · rename_i hexcluded
      simp [hself, hexcluded, List.filterMap_cons, List.filterMap_append, commands_subnetScripts]

theorem commands_script (peers : List PeerConfig) :
    (script libc config templates peers).filterMap Line.command =
      routes libc config templates peers := by
  have hpeers : ∀ peers : List PeerConfig,
      (peers.flatMap (nodeScript libc config templates)).filterMap Line.command =
        (routedPeers config peers).flatMap fun peer =>
          [Family.inet, Family.inet6].flatMap fun family =>
            ((networks peer family).filter (Kept libc config ·)).map
              (templates family).command := by
    intro peers
    induction peers with
    | nil => rfl
    | cons peer peers ih =>
      rw [List.flatMap_cons, List.filterMap_append, commands_nodeScript, ih, routedPeers,
        routedPeers, List.filter_cons]
      split <;> simp
  rw [script, List.filterMap_append, commands_supernetScript, hpeers, routes, destinations]
  simp [List.map_append, List.map_flatMap, Function.comp_def]

/-! The uncommented lines of the text -/

/-- Lines that a shell executes. -/
def isCommand (line : Bytes) : Bool := !line.isEmpty && line.head? != some hash

def uncommented (text : Bytes) : List Bytes := keptLines lineFeed isCommand text

def Clean : Line → Prop
  | .comment text => lineFeed ∉ text
  | .blank => True
  | .route command => lineFeed ∉ command ∧ isCommand command = true

theorem complete_written (line : Line) : Complete lineFeed line.written := by
  cases line with
  | comment text => exact complete_line _
  | blank => exact complete_line []
  | route command => exact complete_line command

theorem uncommented_append {before : Bytes} (h : Complete lineFeed before) (after : Bytes) :
    uncommented (before ++ after) = uncommented before ++ uncommented after :=
  keptLines_append rfl h after

theorem uncommented_line {line : Bytes} (h : lineFeed ∉ line) :
    uncommented (line ++ [lineFeed]) = if isCommand line then [line] else [] := by
  rw [uncommented, keptLines_append_separator, keptLines_line h, keptLines_line (by simp)]
  exact List.append_nil _

theorem uncommented_written {line : Line} (h : Clean line) :
    uncommented line.written = line.command.toList := by
  cases line with
  | comment text =>
    have htext : lineFeed ∉ RouteScript.comment ++ text := by
      rw [List.mem_append, not_or]
      exact ⟨by decide, h⟩
    rw [Line.written, uncommented_line htext]
    rfl
  | blank => rfl
  | route command =>
    rw [Line.written, uncommented_line h.1, if_pos h.2]
    rfl

theorem uncommented_lines {lines : List Line} (h : ∀ line ∈ lines, Clean line) :
    uncommented (lines.flatMap Line.written) = lines.filterMap Line.command := by
  rw [uncommented, keptLines_flatMap rfl fun line _ => complete_written line]
  induction lines with
  | nil => rfl
  | cons line lines ih =>
    obtain ⟨hline, hlines⟩ := List.forall_mem_cons.mp h
    have hwritten : keptLines lineFeed isCommand line.written = _ := uncommented_written hline
    rw [List.flatMap_cons, ih hlines, List.filterMap_cons, hwritten]
    cases line.command <;> rfl

theorem concatAll_complete {texts : List (Option Bytes)}
    (h : ∀ text ∈ texts, ∃ b, text = some b ∧ Complete lineFeed b) :
    ∃ b, concatAll texts = some b ∧ Complete lineFeed b := by
  induction texts with
  | nil => exact ⟨[], rfl, .inl rfl⟩
  | cons text texts ih =>
    obtain ⟨htext, htexts⟩ := List.forall_mem_cons.mp h
    obtain ⟨b, rfl, hb⟩ := htext
    obtain ⟨rest, hrest, hcomplete⟩ := ih htexts
    exact ⟨b ++ rest, by simp [concatAll, hrest], complete_append hb hcomplete⟩

theorem ifconfigLine_complete (ifconfig vpnip : Option Bytes) :
    ∃ b, ifconfigLine libc ifconfig vpnip = some b ∧ Complete lineFeed b := by
  have hformat : formatted libc ([] ++ ascii "%s" ++ [lineFeed]) none [.str (ifconfig.getD [])] =
      some ([] ++ ifconfig.getD [] ++ [lineFeed]) :=
    formatted_str (List.not_mem_nil) (by decide)
  unfold ifconfigLine
  split
  · exact ⟨_, hformat, complete_line _⟩
  · exact ⟨[], rfl, .inl rfl⟩

theorem scriptHead_complete (libc : CLibrary) (config : Config) (up : Bool) :
    ∃ head, scriptHead libc config up = some head ∧ Complete lineFeed head := by
  refine concatAll_complete ?_
  simp only [List.forall_mem_cons, List.not_mem_nil, false_imp_iff, implies_true, and_true]
  refine ⟨⟨_, rfl, .inr rfl⟩, ⟨_, rfl, .inr rfl⟩, ?_⟩
  split
  · refine concatAll_complete ?_
    simp only [List.forall_mem_cons, List.not_mem_nil, false_imp_iff, implies_true, and_true]
    exact ⟨ifconfigLine_complete _ _, ifconfigLine_complete _ _, _, rfl, .inr rfl⟩
  · exact ⟨[], rfl, .inl rfl⟩

/-! Networks that the parser has verified -/

def Verified (libc : CLibrary) (peer : PeerConfig) : Prop :=
  ∀ family, ∀ subnet ∈ networks peer family, addrmaskVerifySubnet libc subnet (some family) = true

theorem unmarked_of_verified (hlibc : NumericTexts libc) {subnet : Bytes} {family : Family}
    (h : addrmaskVerifySubnet libc subnet (some family) = true) :
    subnet ≠ [] ∧ Unmarked subnet := by
  obtain ⟨hne, q, hparse, -⟩ := addrmaskVerifySubnet_iff.mp h
  exact ⟨hne, unmarked_of_addrmaskParse hlibc hparse⟩

theorem clean_command {template : Template} {subnet : Bytes}
    (hstart : template.before.head? ≠ some hash) (hne : subnet ≠ []) (hsubnet : Unmarked subnet) :
    Clean (.route (template.command subnet)) := by
  refine ⟨?_, ?_⟩
  · simp [Template.command, template.before_lineFeed, template.after_lineFeed, hsubnet.not_mem.2]
  · obtain ⟨c, rest, rfl⟩ := List.exists_cons_of_ne_nil hne
    cases hbefore : template.before with
    | nil => simp [isCommand, Template.command, hbefore, (hsubnet c (by simp)).1]
    | cons b before =>
      have hb : b ≠ CStrings.hash := fun heq => hstart (by simp [hbefore, heq])
      simp [isCommand, Template.command, hbefore, hb]

theorem lineFeed_not_mem_reason {subnet reason : Bytes}
    (h : routeMark libc config subnet = some reason) : lineFeed ∉ reason := by
  unfold routeMark at h
  dsimp only at h
  split at h
  · exact Option.some.inj h ▸ by decide
  · split at h
    · exact Option.some.inj h ▸ by decide
    · split at h
      · exact Option.some.inj h ▸ by decide
      · cases h

section Clean

variable (hlibc : NumericTexts libc)
  (hstart : ∀ family, (templates family).before.head? ≠ some hash)
include hlibc hstart

theorem clean_supernetScript : ∀ line ∈ supernetScript libc config templates, Clean line := by
  unfold supernetScript
  split
  · simp
  · intro line hline
    simp only [List.cons_append, List.mem_cons, List.mem_append, List.mem_map, List.not_mem_nil,
      or_false] at hline
    rcases hline with rfl | ⟨net, -, rfl⟩ | rfl
    · exact (by decide : lineFeed ∉ ascii "Mergeroute Supernets")
    · exact clean_command (hstart _) (by simp [addrmaskToString, ascii])
        (unmarked_addrmaskToString hlibc net)
    · trivial

theorem clean_nodeScript {peer : PeerConfig} (hverified : Verified libc peer)
    (hname : lineFeed ∉ peer.name) :
    ∀ line ∈ nodeScript libc config templates peer, Clean line := by
  unfold nodeScript
  split
  · simp
  · split
    · intro line hline
      rw [List.mem_singleton.mp hline]
      exact fun hmem => (List.mem_append.mp hmem).elim (by decide) hname
    · intro line hline
      rcases List.mem_cons.mp hline with rfl | hline
      · exact fun hmem => (List.mem_append.mp hmem).elim (by decide) hname
      · obtain ⟨family, -, hline⟩ := List.mem_flatMap.mp hline
        obtain ⟨subnet, hsubnet, rfl⟩ := List.mem_map.mp hline
        obtain ⟨hne, hunmarked⟩ := unmarked_of_verified hlibc (hverified family subnet hsubnet)
        have hroute := clean_command (hstart family) hne hunmarked
        unfold subnetScript
        split
        · rename_i reason hmark
          exact fun hmem => (List.mem_append.mp hmem).elim (lineFeed_not_mem_reason hmark) hroute.1
        · exact hroute

theorem uncommented_script {peers : List PeerConfig}
    (hverified : ∀ peer ∈ peers, Verified libc peer)
    (hnames : ∀ peer ∈ peers, lineFeed ∉ peer.name) :
    uncommented ((script libc config templates peers).flatMap Line.written) =
      routes libc config templates peers := by
  rw [uncommented_lines, commands_script]
  intro line hline
  rcases List.mem_append.mp hline with hline | hline
  · exact clean_supernetScript hlibc hstart line hline
  · obtain ⟨peer, hpeer, hline⟩ := List.mem_flatMap.mp hline
    exact clean_nodeScript hlibc hstart (hverified peer hpeer) (hnames peer hpeer) line hline

end Clean

/-- A merged network lies in a supernet of its family to which a route goes. -/
theorem merged_covered {peers : List PeerConfig} {family : Family} {subnet : Bytes}
    (hverified : addrmaskVerifySubnet libc subnet (some family) = true)
    (hmerged : (addrmaskMatch libc config.mergeroutesSupernet subnet).isSome = true) :
    ∃ q, addrmaskParse libc subnet = some q ∧ ∃ net ∈ config.mergeroutesSupernet,
      net.addrFamily = family ∧ addresses q ⊆ addresses net ∧
        (family, addrmaskToString libc net) ∈ destinations libc config peers := by
  obtain ⟨-, q, hparse, hfamily⟩ := addrmaskVerifySubnet_iff.mp hverified
  obtain ⟨net, hmatch⟩ := Option.isSome_iff_exists.mp hmerged
  obtain ⟨hmem, hcontains⟩ := addrmaskMatch_contains hparse hmatch
  have hnet : net.addrFamily = family := hcontains.1.1.trans hfamily
  refine ⟨q, hparse, net, hmem, hnet, (contains_iff_subset hcontains.1.1).mp hcontains, ?_⟩
  rw [destinations, List.mem_append]
  exact .inl (List.mem_map.mpr ⟨net, hmem, by rw [hnet]⟩)

/-- The peers that the parser hands over have verified networks and names of one line. -/
theorem parsed_peers_verified (libc : CLibrary) (data : Bytes) :
    ∀ peer ∈ parserParseConfig libc data, Verified libc peer ∧ lineFeed ∉ peer.name := by
  have hsubnet : ∀ {family : Family} {list : List Bytes} {item : Bytes} (c : Prop) [Decidable c],
      (∀ subnet ∈ list, addrmaskVerifySubnet libc subnet (some family) = true) →
        ∀ subnet ∈ (if c then addSubnet libc family list item else list),
          addrmaskVerifySubnet libc subnet (some family) = true := by
    intro family list item c _ hlist subnet hmem
    split at hmem
    · rcases mem_addSubnet_iff.mp hmem with hmem | ⟨rfl, hverify⟩
      · exact hlist subnet hmem
      · exact hverify
    · exact hlist subnet hmem
  refine forall_parserParseConfig ?_ ?_ ?_
  · intro token htoken name hname
    refine ⟨fun family subnet h => by cases family <;> simp [networks, parserCreateConfig] at h, ?_⟩
    exact fun hmem => (mem_line (List.mem_of_mem_filter htoken)).1
      (mem_token_of_headerName hname hmem)
  · intro entry hentry item peer hpeer
    refine ⟨fun family => ?_, name_configItem hentry item peer ▸ hpeer.2⟩
    obtain ⟨hnetwork, hnetwork6⟩ := configItem_subnets hentry item peer
    cases family with
    | inet =>
      rw [networks, hnetwork]
      exact hsubnet _ (hpeer.1 .inet)
    | inet6 =>
      rw [networks, hnetwork6]
      exact hsubnet _ (hpeer.1 .inet6)
  · intro peer key hpeer
    refine ⟨?_, hpeer.2⟩
    rintro (_ | _)
    · exact hpeer.1 .inet
    · exact hpeer.1 .inet6

/-- tinc-up and tinc-down are written as the lines of the script, whose route commands go
to the same destinations in the same order; where no template is itself a comment these
are the uncommented lines between head and foot. A merged network is covered by a
supernet among the destinations. -/
theorem static_routes (libc : CLibrary) (config : Config) (peers : List PeerConfig)
    (templates : Bool → Family → Template) (hlibc : NumericTexts libc)
    (hstatic : config.useDynamicRoutes = false)
    (hvpnip : ∀ family, strIsNonempty (vpnip config family) = true)
    (hroutecmd : ∀ up family, routecmd config up family = some (templates up family).format)
    (hverified : ∀ peer ∈ peers, Verified libc peer) :
    (∀ up, ∃ head file, scriptHead libc config up = some head ∧
      tincWriteUpdown libc config peers up = some file ∧
      file.path = config.basePath ++ ascii (if up then "/tinc-up" else "/tinc-down") ∧
      file.contents = head ++ (script libc config (templates up) peers).flatMap Line.written ++
        scriptFoot config up ∧
      (script libc config (templates up) peers).filterMap Line.command =
        routes libc config (templates up) peers ∧
      ((∀ peer ∈ peers, lineFeed ∉ peer.name) →
        (∀ family, (templates up family).before.head? ≠ some hash) →
          uncommented file.contents = uncommented head ++ routes libc config (templates up) peers ++
            uncommented (scriptFoot config up))) ∧
      ∀ peer ∈ routedPeers config peers, ∀ family, ∀ subnet ∈ networks peer family,
        (addrmaskMatch libc config.mergeroutesSupernet subnet).isSome = true →
          ∃ q, addrmaskParse libc subnet = some q ∧ ∃ net ∈ config.mergeroutesSupernet,
            net.addrFamily = family ∧ addresses q ⊆ addresses net ∧
              (family, addrmaskToString libc net) ∈ destinations libc config peers := by
  refine ⟨fun up => ?_, ?_⟩
  · obtain ⟨head, hhead, hcomplete⟩ := scriptHead_complete libc config up
    have hweight : ∀ peer ∈ peers, ∀ family, ∀ subnet ∈ networks peer family, hash ∉ subnet :=
      fun peer hpeer family subnet hsubnet =>
        (unmarked_of_verified hlibc (hverified peer hpeer family subnet hsubnet)).2.not_mem.1
    refine ⟨head, _, hhead, tincWriteUpdown_written hvpnip (hroutecmd up) hstatic hweight hhead,
      rfl, rfl, commands_script peers, fun hnames hstart => ?_⟩
    have hlines : Complete lineFeed
        ((script libc config (templates up) peers).flatMap Line.written) :=
      complete_flatMap fun line _ => complete_written line
    rw [uncommented_append (complete_append hcomplete hlines), uncommented_append hcomplete,
      uncommented_script hlibc hstart hverified hnames]
  · intro peer hpeer family subnet hsubnet hmerged
    have hpeer : peer ∈ peers := List.mem_of_mem_filter hpeer
    exact merged_covered (hverified peer hpeer family subnet hsubnet) hmerged

/-! An office with a merged network, a home with kept, merged and ignored ones -/

def ipRoute (before : Bytes) (h : percent ∉ before ∧ lineFeed ∉ before) : Template where
  before := before
  after := ascii " dev vpn"
  before_percent := h.1
  after_percent := by decide
  before_lineFeed := h.2
  after_lineFeed := by decide

def officeTemplates : Bool → Family → Template
  | true, .inet => ipRoute (ascii "ip route add ") (by decide)
  | true, .inet6 => ipRoute (ascii "ip -6 route add ") (by decide)
  | false, .inet => ipRoute (ascii "ip route del ") (by decide)
  | false, .inet6 => ipRoute (ascii "ip -6 route del ") (by decide)

def officeConfig : Config where
  peerid := ascii "office"
  networkname := ascii "chaos"
  basePath := ascii "/etc/tinc/chaos"
  vpnIp := some (ascii "172.31.0.1")
  vpnIp6 := some (ascii "fd00:0:0:0:0:0:0:1")
  routeadd := some (ascii "ip route add %s dev vpn")
  routeadd6 := some (ascii "ip -6 route add %s dev vpn")
  routedel := some (ascii "ip route del %s dev vpn")
  routedel6 := some (ascii "ip -6 route del %s dev vpn")
  exclude := some [.string (ascii "LAB")]
  mergeroutesSupernet := [ascii "10.0.0.0/8"].filterMap (addrmaskParse plainLibrary)
  ignoreSubnets := [ascii "192.168.0.0/16"].filterMap (addrmaskParse plainLibrary)

def officePeers : List PeerConfig :=
  parserParseConfig plainLibrary
    (ascii "[office]\nnetwork=172.31.0.0/24\n[lab]\nnetwork=172.31.1.0/24\n" ++
      ascii "[home]\nnetwork=10.1.0.0/16\nnetwork=192.168.1.0/24\nnetwork=172.31.2.0/24\n" ++
      ascii "network6=fd00:0:0:0:0:0:0:0/64\n")

theorem static_routes_office :
    ∃ head file, scriptHead plainLibrary officeConfig true = some head ∧
      tincWriteUpdown plainLibrary officeConfig officePeers true = some file ∧
      uncommented file.contents = uncommented head ++
        [ascii "ip route add 10.0.0.0/8 dev vpn", ascii "ip route add 172.31.2.0/24 dev vpn",
          ascii "ip -6 route add fd00:0:0:0:0:0:0:0/64 dev vpn"] ++
        uncommented (scriptFoot officeConfig true) := by
  have hpeers : ∀ peer ∈ officePeers, Verified plainLibrary peer ∧ lineFeed ∉ peer.name :=
    parsed_peers_verified plainLibrary _
  have hroutes : routes plainLibrary officeConfig (officeTemplates true) officePeers =
      [ascii "ip route add 10.0.0.0/8 dev vpn", ascii "ip route add 172.31.2.0/24 dev vpn",
        ascii "ip -6 route add fd00:0:0:0:0:0:0:0/64 dev vpn"] := by
    decide +kernel
  have hstatic := static_routes plainLibrary officeConfig officePeers officeTemplates
    numericTexts_plainLibrary rfl (by rintro (_ | _) <;> rfl)
    (by rintro (_ | _) (_ | _) <;> rfl) fun peer hpeer => (hpeers peer hpeer).1
  obtain ⟨head, file, hhead, hfile, -, -, -, htext⟩ := hstatic.1 true
  rw [hroutes] at htext
  exact ⟨head, file, hhead, hfile,
    htext (fun peer hpeer => (hpeers peer hpeer).2) (by rintro (_ | _) <;> decide)⟩

end ChaosVpn.RouteSequence
