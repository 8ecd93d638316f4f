import Mathlib.Data.List.ReduceOption
import ChaosVpn.ExcludedNodes
import ChaosVpn.HostsDirectory

/-! tinc_write_config: tinc.conf, in which tincd finds the peers to connect to. A setting
is written as it is, so one that goes over several lines is several lines there. -/

namespace ChaosVpn.TincConf
open CStrings Libc Settings PeerParser RouteScript HostFile HostsDirectory ExcludedNodes StrNatCmp
open ParserSections TextLines

/-- A comparison with a version that is not known is never made. -/
def versionAbove (config : Config) (version : Bytes) : Bool :=
  config.tincdVersion.any fun known => strnatcmp known version > 0

def optionLine (libc : CLibrary) (format : Bytes) (value : Option Bytes) : Option Bytes :=
  if strIsNonempty value then concatF libc format (value.getD []) else some []

def bindToAddress (config : Config) : Option Bytes :=
  config.myIp.filter fun ip => ip ≠ ascii "127.0.0.1" ∧ ip ≠ ascii "0.0.0.0"

/-- The loop over the peers passes over all others. -/
def connectsTo (config : Config) (i : PeerConfig) : Bool :=
  if i.name = config.peerid then false
  else if tincCheckIfExcluded config i.name then false
  else if config.connectOnlyToPrimaryNodes && versionAbove config (ascii "1.0.12") && !i.primary
    then false
  else !i.gatewayhost.isEmpty && !i.hidden

def connectToLine (libc : CLibrary) (config : Config) (i : PeerConfig) : Option Bytes :=
  if connectsTo config i then concatF libc (ascii "ConnectTo=%s\n") i.name else some []

def tincConf (libc : CLibrary) (config : Config) (myPeer : PeerConfig)
    (peerConfig : List PeerConfig) : Option Bytes :=
  concatAll
    [some (comment ++ ascii "this is an autogenerated file - do not edit!\n\n"),
     optionLine libc (ascii "AddressFamily=%s\n") config.myAddressfamily,
     optionLine libc (ascii "BindToAddress=%s\n") (bindToAddress config),
     optionLine libc (ascii "Interface=%s\n") config.tincdInterface,
     optionLine libc (ascii "Device=%s\n") config.tincdDevice,
     some (ascii "Mode=router\n"),
     concatF libc (ascii "Name=%s\n") config.peerid,
     some (ascii "Hostnames=no\n"),
     some (ascii "PingTimeout=60\n"),
     some (if versionAbove config (ascii "1.0.12") then ascii "StrictSubnets=yes\n"
       else ascii "TunnelServer=yes\n"),
     if versionAbove config (ascii "1.0.16") then
       concatYn libc (ascii "LocalDiscovery=%s\n") config.localdiscovery
     else some [],
     if versionAbove config (ascii "1.0.16") then some (ascii "Broadcast=no\n") else some [],
     optionLine libc (ascii "GraphDumpFile=%s\n") config.tincdGraphdumpfile,
     optionLine libc (ascii "%s\n") config.tincdRawConfig,
     if myPeer.silent then some [] else concatAll (peerConfig.map (connectToLine libc config))]

/-- The file, which is a regular one or not there, and whether all of it was written. -/
def fsWritecontents (openFile : Bool) (written : Nat) (file : Option Bytes) (cnt : Bytes) :
    Option Bytes × Bool :=
  if !openFile then (file, false)
  else
    let bw := min written cnt.length
    (some (cnt.take bw), bw = cnt.length)

def tincWriteConfig (libc : CLibrary) (config : Config) (myPeer : PeerConfig)
    (peerConfig : List PeerConfig) (openFile : Bool) (written : Nat) (file : Option Bytes) :
    Option (Option Bytes × Bool) :=
  (tincConf libc config myPeer peerConfig).map (fsWritecontents openFile written file)

theorem fsWritecontents_all {written : Nat} {cnt : Bytes} (h : cnt.length ≤ written)
    (file : Option Bytes) : fsWritecontents true written file cnt = (some cnt, true) := by
  simp [fsWritecontents, Nat.min_eq_right h]

theorem fsWritecontents_written {openFile : Bool} {written : Nat} {old file : Option Bytes}
    {cnt : Bytes} (h : fsWritecontents openFile written old cnt = (file, true)) :
    file = some cnt := by
  unfold fsWritecontents at h
  split at h
  · cases h
  · obtain ⟨rfl, hbw⟩ := Prod.mk.inj h
    rw [of_decide_eq_true hbw, List.take_length]

/-! The lines with peers to connect to -/

def connectToKeyword : Bytes := ascii "ConnectTo="

def isConnectTo (line : Bytes) : Bool := decide (connectToKeyword <+: line)

/-- A piece of whole lines, and those of them that name a peer to connect to. -/
def Writes (piece : Option Bytes) (lines : List Bytes) : Prop :=
  ∃ text, piece = some text ∧ Complete lineFeed text ∧ keptLines lineFeed isConnectTo text = lines

variable {libc : CLibrary} {config : Config}

theorem isConnectTo_nil : isConnectTo [] = false := by decide

theorem writes_nil : Writes (some []) [] := ⟨[], rfl, .inl rfl, rfl⟩

theorem Writes.cons {piece : Option Bytes} {pieces : List (Option Bytes)} {lines rest : List Bytes}
    (h : Writes piece lines) (hrest : Writes (concatAll pieces) rest) :
    Writes (concatAll (piece :: pieces)) (lines ++ rest) := by
  obtain ⟨text, rfl, hcomplete, rfl⟩ := h
  obtain ⟨after, hafter, hcomplete', rfl⟩ := hrest
  exact ⟨text ++ after, by rw [concatAll, hafter]; rfl, complete_append hcomplete hcomplete',
    keptLines_append isConnectTo_nil hcomplete after⟩

theorem Writes.silent {piece : Option Bytes} {pieces : List (Option Bytes)} {lines : List Bytes}
    (h : Writes piece []) (hrest : Writes (concatAll pieces) lines) :
    Writes (concatAll (piece :: pieces)) lines :=
  h.cons hrest

theorem Writes.last {piece : Option Bytes} {lines : List Bytes} (h : Writes piece lines) :
    Writes (concatAll [piece]) lines := by
  have hcons : Writes (concatAll [piece]) (lines ++ []) := h.cons writes_nil
  rwa [List.append_nil] at hcons

theorem writes_map {α : Type} {items : List α} {write : α → Option Bytes} {lines : α → List Bytes}
    (h : ∀ item ∈ items, Writes (write item) (lines item)) :
    Writes (concatAll (items.map write)) (items.flatMap lines) := by
  induction items with
  | nil => exact writes_nil
  | cons item items ih => exact (h item (by simp)).cons (ih fun i hi => h i (by simp [hi]))

/-! The pieces in front of the peers -/

/-- What stands in front of a value, on its first line. -/
def OtherKeyword (keyword : Bytes) : Prop :=
  percent ∉ keyword ∧ lineFeed ∉ keyword ∧ keyword.head?.any (· != 67) = true

instance (keyword : Bytes) : Decidable (OtherKeyword keyword) :=
  inferInstanceAs (Decidable (_ ∧ _ ∧ _))

/-- No line of a value but its first is one that tincd connects by. -/
def KeepsToItself (value : Bytes) : Prop :=
  ∀ line ∈ (value.splitOn lineFeed).tail, ¬ connectToKeyword <+: line

instance (value : Bytes) : Decidable (KeepsToItself value) :=
  inferInstanceAs (Decidable (∀ line ∈ _, _))

theorem OtherKeyword.isConnectTo {keyword : Bytes} (h : OtherKeyword keyword) (rest : Bytes) :
    isConnectTo (keyword ++ rest) = false := by
  obtain ⟨-, -, hhead⟩ := h
  cases keyword with
  | nil => cases hhead
  | cons c keyword =>
    refine decide_eq_false fun hstarts => ?_
    obtain ⟨hc, -⟩ := List.cons_prefix_cons.mp hstarts
    rw [← hc] at hhead
    cases hhead

theorem writes_text (lines : List Bytes) (h : ∀ line ∈ lines, lineFeed ∉ line)
    (hnone : ∀ line ∈ lines, isConnectTo line = false) :
    Writes (some (lines.flatMap (· ++ [lineFeed]))) [] := by
  refine ⟨_, rfl, complete_flatMap fun line _ => complete_line line, ?_⟩
  rw [keptLines_lines isConnectTo_nil h, List.filter_eq_nil_iff]
  exact fun line hline => by simp [hnone line hline]

theorem writes_value (keyword : Bytes) {value : Bytes} (h : OtherKeyword keyword)
    (hvalue : KeepsToItself value) :
    Writes (concatF libc (keyword ++ ascii "%s" ++ [lineFeed]) value) [] := by
  refine ⟨_, concatF_line keyword h.1 value, complete_line _, ?_⟩
  have hnil : keptLines lineFeed isConnectTo [] = [] := by decide
  rw [keptLines_append_separator, hnil, List.append_nil, keptLines, splitOn_append_left h.2.1]
  obtain ⟨first, rest, hsplit⟩ := List.exists_cons_of_ne_nil (List.splitOn_ne_nil lineFeed value)
  rw [KeepsToItself, hsplit, List.tail_cons] at hvalue
  rw [hsplit, List.modifyHead_cons, List.filter_cons_of_neg (by simp [h.isConnectTo]),
    List.filter_eq_nil_iff]
  exact fun line hline => by simp [isConnectTo, hvalue line hline]

theorem writes_option (keyword : Bytes) {value : Option Bytes} (h : OtherKeyword keyword)
    (hvalue : ∀ v ∈ value, KeepsToItself v) :
    Writes (optionLine libc (keyword ++ ascii "%s" ++ [lineFeed]) value) [] := by
  unfold optionLine
  split
  · rename_i hnonempty
    obtain ⟨v, rfl, -⟩ := strIsNonempty_iff.mp hnonempty
    exact writes_value keyword h (hvalue v rfl)
  · exact writes_nil

theorem keepsToItself_of_not_mem {value : Bytes} (h : lineFeed ∉ value) : KeepsToItself value := by
  rw [KeepsToItself, List.splitOn_eq_singleton h]
  simp

/-! The peers to connect to -/

/-- The peers that a node connects to by itself. -/
def ShouldConnect (config : Config) (i : PeerConfig) : Prop :=
  i.name ≠ config.peerid ∧
    (∀ word ∈ excludedWords config.exclude, strcasecmp word i.name = false) ∧
    i.hidden = false ∧ i.gatewayhost ≠ [] ∧
    (config.connectOnlyToPrimaryNodes = true →
      (∃ version, config.tincdVersion = some version ∧ 0 < strnatcmp version (ascii "1.0.12")) →
        i.primary = true)

theorem versionAbove_iff {version : Bytes} :
    versionAbove config version = true ↔
      ∃ known, config.tincdVersion = some known ∧ 0 < strnatcmp known version := by
  unfold versionAbove
  cases config.tincdVersion <;> simp

theorem connectsTo_iff {i : PeerConfig} : connectsTo config i = true ↔ ShouldConnect config i := by
  have hexcluded : tincCheckIfExcluded config i.name = false ↔
      ∀ word ∈ excludedWords config.exclude, strcasecmp word i.name = false := by
    rw [← Bool.not_eq_true, tincCheckIfExcluded_iff]
    simp
  rw [ShouldConnect, ← hexcluded, ← versionAbove_iff]
  unfold connectsTo
  by_cases hname : i.name = config.peerid
  · simp [hname]
  · cases tincCheckIfExcluded config i.name <;> cases config.connectOnlyToPrimaryNodes <;>
      cases versionAbove config (ascii "1.0.12") <;> cases i.primary <;> cases i.hidden <;>
        simp [hname]

instance (config : Config) (i : PeerConfig) : Decidable (ShouldConnect config i) :=
  decidable_of_iff _ connectsTo_iff

theorem writes_connectTo {i : PeerConfig} (hname : lineFeed ∉ i.name) :
    Writes (connectToLine libc config i)
      (if ShouldConnect config i then [connectToKeyword ++ i.name] else []) := by
  unfold connectToLine
  by_cases h : ShouldConnect config i
  · rw [if_pos h, if_pos (connectsTo_iff.mpr h)]
    refine ⟨_, concatF_line connectToKeyword (by decide) _, complete_line _, ?_⟩
    have hline : lineFeed ∉ connectToKeyword ++ i.name := by
      rw [List.mem_append, not_or]
      exact ⟨by decide, hname⟩
    have hconnect : isConnectTo (connectToKeyword ++ i.name) = true :=
      decide_eq_true (List.prefix_append _ _)
    have hkept := keptLines_append_line isConnectTo_nil (.inl rfl) hline
    rw [List.nil_append] at hkept
    rw [hkept, hconnect]
    rfl
  · rw [if_neg h, if_neg (mt connectsTo_iff.mp h)]
    exact writes_nil

/-! The whole file -/

/-- The settings that are written, but for `$tincd_raw_config`. -/
def writtenSettings (config : Config) : List Bytes :=
  [config.myAddressfamily, bindToAddress config, config.tincdInterface, config.tincdDevice,
    config.tincdGraphdumpfile].reduceOption

def connectToLines (config : Config) (myPeer : PeerConfig) (peers : List PeerConfig) : List Bytes :=
  if myPeer.silent then []
  else (peers.filter (ShouldConnect config ·)).map fun i => connectToKeyword ++ i.name

theorem writes_tincConf {myPeer : PeerConfig} {peers : List PeerConfig}
    (hraw : strIsNonempty config.tincdRawConfig = false)
    (hsettings : ∀ value ∈ writtenSettings config, KeepsToItself value)
    (hpeerid : lineFeed ∉ config.peerid) (hnames : ∀ i ∈ peers, lineFeed ∉ i.name) :
    Writes (tincConf libc config myPeer peers) (connectToLines config myPeer peers) := by
  have hvalue {value : Option Bytes} (h : value ∈ [config.myAddressfamily, bindToAddress config,
      config.tincdInterface, config.tincdDevice, config.tincdGraphdumpfile]) :
      ∀ v ∈ value, KeepsToItself v := fun v hv =>
    hsettings v (List.reduceOption_mem_iff.mpr (Option.mem_def.mp hv ▸ h))
  have hyesNo (b : Bool) : KeepsToItself (ascii (if b then "yes" else "no")) := by
    cases b <;> decide
  have hlocal : Writes (concatYn libc (ascii "LocalDiscovery=%s\n") config.localdiscovery) [] :=
    writes_value (ascii "LocalDiscovery=") (by decide) (hyesNo _)
  have hpeers : Writes (concatAll (peers.map (connectToLine libc config)))
      ((peers.filter (ShouldConnect config ·)).map fun i => connectToKeyword ++ i.name) := by
    rw [← flatMap_kept]
    simp only [decide_eq_true_eq]
    exact writes_map fun i hi => writes_connectTo (hnames i hi)
  have hcomment : Writes (some (comment ++
      ascii "this is an autogenerated file - do not edit!" ++ [lineFeed, lineFeed])) [] := by
    simpa using writes_text [comment ++ ascii "this is an autogenerated file - do not edit!", []]
      (by decide) (by decide)
  rw [tincConf, autogenerated_eq]
  refine .silent hcomment ?_
  refine .silent (writes_option (ascii "AddressFamily=") (by decide) (hvalue (by simp))) ?_
  refine .silent (writes_option (ascii "BindToAddress=") (by decide) (hvalue (by simp))) ?_
  refine .silent (writes_option (ascii "Interface=") (by decide) (hvalue (by simp))) ?_
  refine .silent (writes_option (ascii "Device=") (by decide) (hvalue (by simp))) ?_
  refine .silent (writes_text [ascii "Mode=router"] (by decide) (by decide)) ?_
  refine .silent (writes_value (ascii "Name=") (by decide) (keepsToItself_of_not_mem hpeerid)) ?_
  refine .silent (writes_text [ascii "Hostnames=no"] (by decide) (by decide)) ?_
  refine .silent (writes_text [ascii "PingTimeout=60"] (by decide) (by decide)) ?_
  refine .silent ?_ (.silent ?_ (.silent ?_ ?_))
  · split
    · exact writes_text [ascii "StrictSubnets=yes"] (by decide) (by decide)
    · exact writes_text [ascii "TunnelServer=yes"] (by decide) (by decide)
  · split
    · exact hlocal
    · exact writes_nil
  · split
    · exact writes_text [ascii "Broadcast=no"] (by decide) (by decide)
    · exact writes_nil
  refine .silent (writes_option (ascii "GraphDumpFile=") (by decide) (hvalue (by simp)))
    (.silent ?_ (.last ?_))
  · rw [optionLine, hraw]
    exact writes_nil
  · unfold connectToLines
    split
    · exact writes_nil
    · exact hpeers

/-! The host files -/

theorem not_mem_sectionName {text name : Bytes} (h : name ∈ sectionNames text) :
    lineFeed ∉ name := by
  obtain ⟨token, htoken, hname⟩ := List.mem_filterMap.mp h
  have hsplit : token ∈ (cstr text).splitOn lineFeed := (List.mem_filter.mp htoken).1
  exact fun hmem => (mem_line hsplit).1 (mem_token_of_headerName hname hmem)

/-- The file of a peer that can be connected to has its address on a line. -/
theorem address_line {text contents : Bytes} {peer : PeerConfig}
    (hpeer : peer ∈ parserParseConfig libc text) (hconnect : ShouldConnect config peer)
    (h : tincGeneratePeerConfig libc config peer = some contents) :
    ascii "Address=" ++ peer.gatewayhost ∈ contents.splitOn lineFeed := by
  rw [parserParseConfig_eq, List.mem_map] at hpeer
  obtain ⟨s, hs, rfl⟩ := hpeer
  have hlines : ∀ line ∈ s.lines, lineFeed ∉ line := fun line hline => not_mem_line hs hline
  have hsubnets : ∀ subnet ∈ (parseSection libc s).network ++ (parseSection libc s).network6,
      lineFeed ∉ subnet := by
    rw [network_parseSection, network6_parseSection, List.forall_mem_append]
    exact ⟨not_mem_checkedSubnets hlines, not_mem_checkedSubnets hlines⟩
  rw [tincGeneratePeerConfig_eq _ (isSome_tincdVersion h)] at h
  obtain rfl := Option.some.inj h
  rw [hostText, List.append_assoc, List.append_assoc,
    splitOn_lines_append (not_mem_settingLines (not_mem_text hlines) hsubnets)]
  refine List.mem_append_left _ ?_
  obtain ⟨-, -, hhidden, hgatewayhost, -⟩ := hconnect
  simp [settingLines, hhidden, hgatewayhost]

/-- tinc.conf connects to the right peers of an accepted text, and to each of them there
is a host file with an address. -/
theorem connectTo_agrees (libc : CLibrary) (config : Config) (text : Bytes) (own : PeerConfig)
    (hraw : strIsNonempty config.tincdRawConfig = false)
    (hsettings : ∀ value ∈ writtenSettings config, KeepsToItself value)
    (hnodup : (sectionNames text).Nodup) (hslash : ∀ name ∈ sectionNames text, slash ∉ name)
    (hown : own ∈ parserParseConfig libc text) (hpeerid : own.name = config.peerid) :
    (∀ openFile written old file,
      tincWriteConfig libc config own (parserParseConfig libc text) openFile written old =
          some (file, true) →
        ∃ contents, file = some contents ∧
          keptLines lineFeed isConnectTo contents =
              connectToLines config own (parserParseConfig libc text) ∧
            (keptLines lineFeed isConnectTo contents).Nodup) ∧
    ∀ outcomes hosts after,
      tincWriteHosts libc config outcomes hosts (parserParseConfig libc text) =
          some (after, true) →
        ∀ peer ∈ parserParseConfig libc text, ShouldConnect config peer →
          ∃ contents, tincGeneratePeerConfig libc config peer = some contents ∧
            ascii "Address=" ++ peer.gatewayhost ∈ contents.splitOn lineFeed ∧
              (entriesOf hosts peer.name ≠ some .special →
                entriesOf after peer.name = some (.regular contents)) := by
  have hnames : ∀ i ∈ parserParseConfig libc text, i.name ∈ sectionNames text := fun i hi =>
    mem_sectionNames_iff.mpr ⟨i, hi, rfl⟩
  refine ⟨fun openFile written old file h => ?_, fun outcomes hosts after h peer hpeer hconnect => ?_⟩
  · obtain ⟨contents, hcontents, hwritten⟩ := Option.map_eq_some_iff.mp h
    have hwrites : Writes (tincConf libc config own (parserParseConfig libc text))
        (connectToLines config own (parserParseConfig libc text)) :=
      writes_tincConf hraw hsettings (hpeerid ▸ not_mem_sectionName (hnames own hown))
        fun i hi => not_mem_sectionName (hnames i hi)
    obtain ⟨contents', hcontents', -, hlines⟩ := hwrites
    obtain rfl := Option.some.inj (hcontents.symm.trans hcontents')
    refine ⟨contents, fsWritecontents_written hwritten, hlines, ?_⟩
    rw [hlines, connectToLines]
    split
    · exact List.nodup_nil
    · have hdistinct : ((parserParseConfig libc text).map fun i => i.name).Nodup :=
        (names_parserParseConfig text).symm ▸ hnodup
      have hfilter : (((parserParseConfig libc text).filter (ShouldConnect config ·)).map
          fun i => i.name).Nodup := hdistinct.sublist (List.filter_sublist.map _)
      have hlines := hfilter.map (List.append_right_injective connectToKeyword)
      rwa [List.map_map] at hlines
  · obtain ⟨hgenerated, hentries⟩ := writeHosts_spec _ peer.name h
    obtain ⟨contents, hcontents⟩ := Option.isSome_iff_exists.mp (hgenerated peer hpeer)
    refine ⟨contents, hcontents, address_line hpeer hconnect hcontents, fun hspecial => ?_⟩
    rw [hentries, entriesOf_fsMkdirP, if_neg hspecial,
      (lastWritten_section hgenerated hnodup hslash contents).mpr ⟨peer, hpeer, rfl, hcontents⟩]
    rfl

/-! Two nodes, of which the first is the own one -/

def tunConfig (device : Bytes) : Config where
  peerid := ascii "office"
  networkname := ascii "vpn"
  basePath := ascii "/etc/tinc/vpn"
  tincdVersion := some (ascii "1.0.36")
  tincdDevice := some device

def labText (item : Bytes) : Bytes := ascii "[office]\n[lab]\nprimary=1\n" ++ item ++ [lineFeed]

def tunDevice : Bytes := ascii "/dev/net/tun"

theorem connectTo_agrees_lab :
    ∃ contents,
      tincWriteConfig plainLibrary (tunConfig tunDevice) (parserCreateConfig (ascii "office"))
          (parserParseConfig plainLibrary (labText (ascii "gatewayhost=lab.example"))) true 4096
            none = some (some contents, true) ∧
        keptLines lineFeed isConnectTo contents = [ascii "ConnectTo=lab"] := by
  have hlength : (tincConf plainLibrary (tunConfig tunDevice)
      (parserCreateConfig (ascii "office"))
        (parserParseConfig plainLibrary (labText (ascii "gatewayhost=lab.example")))).map
          (fun contents => decide (contents.length ≤ 4096)) = some true := by
    decide +kernel
  obtain ⟨contents, hcontents, hle⟩ := Option.map_eq_some_iff.mp hlength
  have hwrite : tincWriteConfig plainLibrary (tunConfig tunDevice)
      (parserCreateConfig (ascii "office"))
        (parserParseConfig plainLibrary (labText (ascii "gatewayhost=lab.example"))) true 4096
          none = some (some contents, true) := by
    rw [tincWriteConfig, hcontents, Option.map_some, fsWritecontents_all (of_decide_eq_true hle)]
  obtain ⟨contents', heq, hlines, -⟩ := (connectTo_agrees plainLibrary (tunConfig tunDevice)
    (labText (ascii "gatewayhost=lab.example")) (parserCreateConfig (ascii "office")) rfl
    (by decide) (by decide) (by decide) (by decide +kernel) rfl).1 true 4096 none _ hwrite
  obtain rfl := Option.some.inj heq
  have hconnect : connectToLines (tunConfig tunDevice) (parserCreateConfig (ascii "office"))
      (parserParseConfig plainLibrary (labText (ascii "gatewayhost=lab.example"))) =
        [ascii "ConnectTo=lab"] := by
    decide +kernel
  exact ⟨contents, hwrite, hlines.trans hconnect⟩

/-- The second line of a device makes tincd connect to a node without an address. -/
theorem device_connects :
    ∃ contents,
      tincWriteConfig plainLibrary (tunConfig (tunDevice ++ ascii "\nConnectTo=lab"))
          (parserCreateConfig (ascii "office"))
            (parserParseConfig plainLibrary (labText (ascii "hidden=1"))) true 4096 none =
        some (some contents, true) ∧
      parserCreateConfig (ascii "office") ∈
        parserParseConfig plainLibrary (labText (ascii "hidden=1")) ∧
      (sectionNames (labText (ascii "hidden=1"))).Nodup ∧
      (∀ name ∈ sectionNames (labText (ascii "hidden=1")), slash ∉ name) ∧
      connectToLines (tunConfig (tunDevice ++ ascii "\nConnectTo=lab"))
          (parserCreateConfig (ascii "office"))
            (parserParseConfig plainLibrary (labText (ascii "hidden=1"))) = [] ∧
        keptLines lineFeed isConnectTo contents = [ascii "ConnectTo=lab"] := by
  have hconf : (tincConf plainLibrary (tunConfig (tunDevice ++ ascii "\nConnectTo=lab"))
      (parserCreateConfig (ascii "office"))
        (parserParseConfig plainLibrary (labText (ascii "hidden=1")))).map
          (fun contents => decide (contents.length ≤ 4096 ∧
            keptLines lineFeed isConnectTo contents = [ascii "ConnectTo=lab"])) = some true := by
    decide +kernel
  obtain ⟨contents, hcontents, hholds⟩ := Option.map_eq_some_iff.mp hconf
  obtain ⟨hle, hlines⟩ := of_decide_eq_true hholds
  refine ⟨contents, ?_, by decide +kernel, by decide, by decide, by decide +kernel, hlines⟩
  rw [tincWriteConfig, hcontents, Option.map_some, fsWritecontents_all hle]

end ChaosVpn.TincConf
