import ChaosVpn.ParserSections
import ChaosVpn.RouteScript
import ChaosVpn.StrNatCmp

/-! tinc_generate_peer_config: the host file of a peer, which tincd reads line by line.
Memory never runs out; `none` stands for undefined formatting and for a comparison with
a version that is not known. -/

namespace ChaosVpn.HostFile
open CStrings StringBuffer Libc AddrMask Settings PeerParser ParserLines ParserSections RouteScript
open StrNatCmp TextLines

def tincDefaultCipher : Bytes := ascii "blowfish"
def tincDefaultCompression : Bytes := ascii "0"
def tincDefaultDigest : Bytes := ascii "sha1"

def concatDf (libc : CLibrary) (format value defaultValue : Bytes) : Option Bytes :=
  concatF libc format (if value.isEmpty then defaultValue else value)

def concatYn (libc : CLibrary) (format : Bytes) (value : Bool) : Option Bytes :=
  concatF libc format (ascii (if value then "yes" else "no"))

def tincAddSubnet (libc : CLibrary) (network : List Bytes) : Option Bytes :=
  concatAll (network.map (concatF libc (ascii "Subnet=%s\n")))

/-- The Ed25519 key is written for tinc 1.1 and later, the own one from its file. -/
def ed25519Lines (libc : CLibrary) (config : Config) (peer : PeerConfig) : Option Bytes :=
  config.tincdVersion.bind fun version =>
    if strnatcmp version (ascii "1.1") > 0 then
      if peer.name = config.peerid then
        let own := stringGet config.ed25519publickey
        if strIsNonempty own then some (own.getD [] ++ ascii "\n") else some []
      else if !peer.ed25519publickey.isEmpty then
        concatF libc (ascii "Ed25519PublicKey=%s\n") peer.ed25519publickey
      else some []
    else some []

/-- The text that tinc_generate_peer_config puts into its empty buffer. -/
def tincGeneratePeerConfig (libc : CLibrary) (config : Config) (peer : PeerConfig) : Option Bytes :=
  concatAll
    [some (comment ++ ascii "this is an autogenerated file - do not edit!\n\n"),
     if !peer.gatewayhost.isEmpty && !peer.hidden then
       concatF libc (ascii "Address=%s\n") peer.gatewayhost
     else some [],
     concatDf libc (ascii "Cipher=%s\n") peer.cipher tincDefaultCipher,
     concatDf libc (ascii "Compression=%s\n") peer.compression tincDefaultCompression,
     concatDf libc (ascii "Digest=%s\n") peer.digest tincDefaultDigest,
     concatYn libc (ascii "IndirectData=%s\n") peer.indirectdata,
     formatted libc (ascii "Port=%d\n") none [.int peer.port],
     tincAddSubnet libc peer.network,
     tincAddSubnet libc peer.network6,
     concatYn libc (ascii "TCPonly=%s\n") peer.useTcpOnly,
     concatF libc (ascii "%s\n\n") peer.key,
     ed25519Lines libc config peer]

/-! The lines of the file -/

variable {libc : CLibrary} {config : Config}

/-- The lines in front of the key. -/
def settingLines (peer : PeerConfig) : List Bytes :=
  [comment ++ ascii "this is an autogenerated file - do not edit!", []] ++
  (if !peer.gatewayhost.isEmpty && !peer.hidden then [ascii "Address=" ++ peer.gatewayhost]
    else []) ++
  [ascii "Cipher=" ++ if peer.cipher.isEmpty then tincDefaultCipher else peer.cipher,
   ascii "Compression=" ++
     if peer.compression.isEmpty then tincDefaultCompression else peer.compression,
   ascii "Digest=" ++ if peer.digest.isEmpty then tincDefaultDigest else peer.digest,
   ascii "IndirectData=" ++ ascii (if peer.indirectdata then "yes" else "no"),
   ascii "Port=" ++ decimalInt (toInt32 peer.port)] ++
  (peer.network ++ peer.network6).map (ascii "Subnet=" ++ ·) ++
  [ascii "TCPonly=" ++ ascii (if peer.useTcpOnly then "yes" else "no")]

/-- What follows the key. -/
def ed25519Text (config : Config) (peer : PeerConfig) : Bytes :=
  if strnatcmp (config.tincdVersion.getD []) (ascii "1.1") > 0 then
    if peer.name = config.peerid then
      let own := stringGet config.ed25519publickey
      if strIsNonempty own then own.getD [] ++ [lineFeed] else []
    else if !peer.ed25519publickey.isEmpty then
      ascii "Ed25519PublicKey=" ++ peer.ed25519publickey ++ [lineFeed]
    else []
  else []

def hostText (config : Config) (peer : PeerConfig) : Bytes :=
  (settingLines peer).flatMap (· ++ [lineFeed]) ++ peer.key ++ [lineFeed, lineFeed] ++
    ed25519Text config peer

theorem concatF_line (keyword : Bytes) (hkeyword : percent ∉ keyword) (value : Bytes) :
    concatF libc (keyword ++ ascii "%s" ++ [lineFeed]) value =
      some (keyword ++ value ++ [lineFeed]) :=
  formatted_str hkeyword (by decide)

theorem formatted_port (port : Nat) :
    formatted libc (ascii "Port=%d\n") none [.int port] =
      some (ascii "Port=" ++ decimalInt (toInt32 port) ++ [lineFeed]) := by
  have hint : formatted libc (ascii "%d\n") none [.int port] =
      (formatted libc [lineFeed] none []).map (decimalInt (toInt32 port) ++ ·) := rfl
  have hformat : ascii "Port=%d\n" = ascii "Port=" ++ ascii "%d\n" := rfl
  rw [hformat, formatted_append (by decide), hint, formatted_literal (by decide)]
  simp

theorem tincAddSubnet_eq (network : List Bytes) :
    tincAddSubnet libc network =
      some (network.flatMap fun subnet => ascii "Subnet=" ++ subnet ++ [lineFeed]) :=
  concatAll_map fun subnet _ => concatF_line (ascii "Subnet=") (by decide) subnet

theorem ed25519Lines_eq (peer : PeerConfig) (hversion : config.tincdVersion.isSome = true) :
    ed25519Lines libc config peer = some (ed25519Text config peer) := by
  obtain ⟨version, heq⟩ := Option.isSome_iff_exists.mp hversion
  have hkey : concatF libc (ascii "Ed25519PublicKey=%s\n") peer.ed25519publickey =
      some (ascii "Ed25519PublicKey=" ++ peer.ed25519publickey ++ [lineFeed]) :=
    concatF_line (ascii "Ed25519PublicKey=") (by decide) _
  simp only [ed25519Lines, ed25519Text, heq, Option.bind_some, Option.getD_some, hkey]
  split
  · split
    · split <;> rfl
    · split <;> rfl
  · rfl

theorem isSome_tincdVersion {peer : PeerConfig} {file : Bytes}
    (h : tincGeneratePeerConfig libc config peer = some file) :
    config.tincdVersion.isSome = true := by
  have hlast := isSome_concatAll.mp (Option.isSome_of_eq_some h) (ed25519Lines libc config peer)
    (by simp)
  obtain ⟨text, htext⟩ := Option.isSome_iff_exists.mp hlast
  obtain ⟨version, hversion, -⟩ := Option.bind_eq_some_iff.mp htext
  rw [hversion]
  rfl

theorem tincGeneratePeerConfig_eq (peer : PeerConfig)
    (hversion : config.tincdVersion.isSome = true) :
    tincGeneratePeerConfig libc config peer = some (hostText config peer) := by
  have haddress : concatF libc (ascii "Address=%s\n") peer.gatewayhost = some _ :=
    concatF_line (ascii "Address=") (by decide) _
  have hcipher (value : Bytes) : concatF libc (ascii "Cipher=%s\n") value = some _ :=
    concatF_line (ascii "Cipher=") (by decide) _
  have hcompression (value : Bytes) : concatF libc (ascii "Compression=%s\n") value = some _ :=
    concatF_line (ascii "Compression=") (by decide) _
  have hdigest (value : Bytes) : concatF libc (ascii "Digest=%s\n") value = some _ :=
    concatF_line (ascii "Digest=") (by decide) _
  have hindirect (value : Bytes) : concatF libc (ascii "IndirectData=%s\n") value = some _ :=
    concatF_line (ascii "IndirectData=") (by decide) _
  have htcponly (value : Bytes) : concatF libc (ascii "TCPonly=%s\n") value = some _ :=
    concatF_line (ascii "TCPonly=") (by decide) _
  have hstr : formatted libc ([] ++ ascii "%s" ++ ascii "\n\n") none [.str peer.key] = some _ :=
    formatted_str (by simp) (by decide)
  have hkey : concatF libc (ascii "%s\n\n") peer.key =
      some (peer.key ++ [lineFeed, lineFeed]) := hstr
  rw [tincGeneratePeerConfig, ed25519Lines_eq peer hversion, haddress, concatDf, hcipher, concatDf,
    hcompression, concatDf, hdigest, concatYn, hindirect, formatted_port, tincAddSubnet_eq,
    tincAddSubnet_eq, concatYn, htcponly, hkey, autogenerated_eq]
  by_cases hgateway : (!peer.gatewayhost.isEmpty && !peer.hidden) = true <;>
    simp [concatAll, hostText, settingLines, hgateway, List.flatMap_map]

/-! The subnets in the file -/

def subnetKeyword : Bytes := ascii "Subnet"

def isSubnetLine (line : Bytes) : Bool := decide (StartsWith subnetKeyword line)

/-- Lines of the file that start with `Subnet` come from the checked items of the section. -/
def OnlyCheckedSubnets (libc : CLibrary) (s : PeerSection) (file : Bytes) : Prop :=
  keptLines lineFeed isSubnetLine file =
    (checkedSubnets libc (ascii "network=") .inet s.lines ++
      checkedSubnets libc (ascii "network6=") .inet6 s.lines).map (ascii "Subnet=" ++ ·)

/-- The own key file is written and has a line that starts with `Subnet`. -/
def SubnetInOwnKey (config : Config) (name : Bytes) : Prop :=
  name = config.peerid ∧
    (∃ version, config.tincdVersion = some version ∧ 0 < strnatcmp version (ascii "1.1")) ∧
    ∃ line ∈ ((stringGet config.ed25519publickey).getD []).splitOn lineFeed,
      StartsWith subnetKeyword line

theorem isSubnetLine_nil : isSubnetLine [] = false := by decide

theorem isSubnetLine_of_head {line : Bytes} {c : UInt8} (hhead : line.head? = some c)
    (hc : toLower 83 ≠ toLower c) : isSubnetLine line = false :=
  decide_eq_false fun hstarts => hc (hstarts.head rfl hhead)

theorem isSubnetLine_subnet (item : Bytes) : isSubnetLine (ascii "Subnet=" ++ item) = true := by
  have hprefix : ascii "Subnet=" ++ item = subnetKeyword ++ (ascii "=" ++ item) := rfl
  rw [isSubnetLine, hprefix, decide_eq_true_iff]
  exact startsWith_append _ _

theorem isSubnetLine_setting {keyword : Bytes} (value : Bytes)
    (h : (keyword.head?.map fun c => decide (toLower 83 ≠ toLower c)) = some true) :
    isSubnetLine (keyword ++ value) = false := by
  obtain ⟨c, hhead, hc⟩ := Option.map_eq_some_iff.mp h
  refine isSubnetLine_of_head (c := c) ?_ (of_decide_eq_true hc)
  rw [List.head?_append, hhead]
  rfl

theorem filter_settingLines (peer : PeerConfig) :
    (settingLines peer).filter isSubnetLine =
      (peer.network ++ peer.network6).map (ascii "Subnet=" ++ ·) := by
  have hcomment : isSubnetLine
      (comment ++ ascii "this is an autogenerated file - do not edit!") = false :=
    isSubnetLine_setting _ (by decide)
  have haddress (v : Bytes) : isSubnetLine (ascii "Address=" ++ v) = false :=
    isSubnetLine_setting v (by decide)
  have hcipher (v : Bytes) : isSubnetLine (ascii "Cipher=" ++ v) = false :=
    isSubnetLine_setting v (by decide)
  have hcompression (v : Bytes) : isSubnetLine (ascii "Compression=" ++ v) = false :=
    isSubnetLine_setting v (by decide)
  have hdigest (v : Bytes) : isSubnetLine (ascii "Digest=" ++ v) = false :=
    isSubnetLine_setting v (by decide)
  have hindirect (v : Bytes) : isSubnetLine (ascii "IndirectData=" ++ v) = false :=
    isSubnetLine_setting v (by decide)
  have hport (v : Bytes) : isSubnetLine (ascii "Port=" ++ v) = false :=
    isSubnetLine_setting v (by decide)
  have htcponly (v : Bytes) : isSubnetLine (ascii "TCPonly=" ++ v) = false :=
    isSubnetLine_setting v (by decide)
  have hsubnets (items : List Bytes) :
      (items.map (ascii "Subnet=" ++ ·)).filter isSubnetLine =
        items.map (ascii "Subnet=" ++ ·) := by
    rw [List.filter_eq_self, List.forall_mem_map]
    exact fun item _ => isSubnetLine_subnet item
  have hgateway : (if !peer.gatewayhost.isEmpty && !peer.hidden then
      [ascii "Address=" ++ peer.gatewayhost] else []).filter isSubnetLine = [] := by
    split <;> simp [haddress]
  simp only [settingLines, List.filter_append, hgateway, hsubnets]
  simp [isSubnetLine_nil, hcomment, hcipher, hcompression, hdigest, hindirect, hport, htcponly]

/-- The texts of a peer that the file takes from one line each. -/
def textFields : List (PeerConfig → Bytes) :=
  [fun p => p.gatewayhost, fun p => p.cipher, fun p => p.compression, fun p => p.digest,
   fun p => p.ed25519publickey]

theorem configItem_texts {entry : Bytes × (Bytes → PeerConfig → PeerConfig)}
    (h : entry ∈ configItems libc) (item : Bytes) (p : PeerConfig) :
    ∀ get ∈ textFields, get (entry.2 item p) = item ∨ get (entry.2 item p) = get p := by
  revert entry
  simp [configItems, textFields]

theorem not_mem_text {s : PeerSection} (hlines : ∀ line ∈ s.lines, lineFeed ∉ line) :
    ∀ get ∈ textFields, lineFeed ∉ get (parseSection libc s) := by
  intro get hget
  refine not_mem_field hlines ?_ (fun _ h item p => configItem_texts h item p get hget) ?_
  · intro name
    revert get
    simp [textFields, parserCreateConfig]
  · intro p key
    revert get
    simp [textFields]

theorem name_parseSection (s : PeerSection) : (parseSection libc s).name = s.name :=
  parseSection_keeps (P := fun p => p.name = s.name) rfl
    (fun _ _ _ h _ p hp => (name_configItem h _ p).trans hp) (fun _ _ hp => hp)

theorem network_parseSection (s : PeerSection) :
    (parseSection libc s).network = checkedSubnets libc (ascii "network=") .inet s.lines :=
  checkedSubnets_parseSection (by decide) (fun _ => rfl)
    (fun _ h item p => (configItem_subnets h item p).1) (fun _ _ => rfl) s

theorem network6_parseSection (s : PeerSection) :
    (parseSection libc s).network6 = checkedSubnets libc (ascii "network6=") .inet6 s.lines :=
  checkedSubnets_parseSection (by decide) (fun _ => rfl)
    (fun _ h item p => (configItem_subnets h item p).2) (fun _ _ => rfl) s

theorem unmarked_decimalInt (i : Int) : Unmarked (decimalInt i) := by
  have hdecimal (n : Nat) : Unmarked (decimal n) := unmarked_toDigits (by decide) n
  unfold decimalInt
  split
  · exact unmarked_append.mpr ⟨by decide, hdecimal _⟩
  · exact hdecimal _

theorem not_mem_settingLines {peer : PeerConfig} (htexts : ∀ get ∈ textFields, lineFeed ∉ get peer)
    (hsubnets : ∀ subnet ∈ peer.network ++ peer.network6, lineFeed ∉ subnet) :
    ∀ line ∈ settingLines peer, lineFeed ∉ line := by
  have hsetting {keyword value : Bytes} (hvalue : lineFeed ∉ value) (hkeyword : lineFeed ∉ keyword) :
      lineFeed ∉ keyword ++ value := by
    rw [List.mem_append, not_or]
    exact ⟨hkeyword, hvalue⟩
  have hdefault {value defaultValue : Bytes} (hvalue : lineFeed ∉ value)
      (hdefault : lineFeed ∉ defaultValue) :
      lineFeed ∉ if value.isEmpty then defaultValue else value := by
    split <;> assumption
  have hyesNo (b : Bool) : lineFeed ∉ ascii (if b then "yes" else "no") := by
    cases b <;> decide
  simp only [textFields, List.forall_mem_cons, List.not_mem_nil, false_implies, implies_true,
    and_true] at htexts
  obtain ⟨hgatewayhost, hcipher, hcompression, hdigest, -⟩ := htexts
  intro line hline
  simp only [settingLines, List.mem_append] at hline
  rcases hline with (((hline | hline) | hline) | hline) | hline
  · revert line
    decide
  · split at hline
    · rw [List.mem_singleton.mp hline]
      exact hsetting hgatewayhost (by decide)
    · cases hline
  · simp only [List.mem_cons, List.not_mem_nil, or_false] at hline
    rcases hline with rfl | rfl | rfl | rfl | rfl
    · exact hsetting (hdefault hcipher (by decide)) (by decide)
    · exact hsetting (hdefault hcompression (by decide)) (by decide)
    · exact hsetting (hdefault hdigest (by decide)) (by decide)
    · exact hsetting (hyesNo _) (by decide)
    · exact hsetting (unmarked_decimalInt _).not_mem.2 (by decide)
  · obtain ⟨subnet, hsubnet, rfl⟩ := List.mem_map.mp hline
    exact hsetting (hsubnets subnet hsubnet) (by decide)
  · rw [List.mem_singleton.mp hline]
    exact hsetting (hyesNo _) (by decide)

/-- The lines of a file that start with `Subnet`: those of the peer, of its key and of the
own key. -/
theorem keptLines_hostText {peer : PeerConfig} (htexts : ∀ get ∈ textFields, lineFeed ∉ get peer)
    (hsubnets : ∀ subnet ∈ peer.network ++ peer.network6, lineFeed ∉ subnet) :
    keptLines lineFeed isSubnetLine (hostText config peer) =
      (peer.network ++ peer.network6).map (ascii "Subnet=" ++ ·) ++
        (keptLines lineFeed isSubnetLine peer.key ++
          keptLines lineFeed isSubnetLine (ed25519Text config peer)) := by
  have hcomplete : Complete lineFeed ((settingLines peer).flatMap (· ++ [lineFeed])) :=
    complete_flatMap fun line _ => complete_line line
  have hnil : keptLines lineFeed isSubnetLine [] = [] := rfl
  have htext : hostText config peer = (settingLines peer).flatMap (· ++ [lineFeed]) ++
      (peer.key ++ lineFeed :: ([] ++ lineFeed :: ed25519Text config peer)) := by
    simp [hostText]
  rw [htext, keptLines_append isSubnetLine_nil hcomplete,
    keptLines_lines isSubnetLine_nil (not_mem_settingLines htexts hsubnets),
    filter_settingLines, keptLines_append_separator, keptLines_append_separator, hnil,
    List.nil_append]

theorem keptLines_eq_nil {text : Bytes} :
    keptLines lineFeed isSubnetLine text = [] ↔
      ¬ ∃ line ∈ text.splitOn lineFeed, StartsWith subnetKeyword line := by
  simp [keptLines, isSubnetLine]

theorem keptLines_snoc (text : Bytes) :
    keptLines lineFeed isSubnetLine (text ++ [lineFeed]) =
      keptLines lineFeed isSubnetLine text := by
  have hnil : keptLines lineFeed isSubnetLine [] = [] := rfl
  rw [keptLines_append_separator, hnil, List.append_nil]

theorem keptLines_ed25519Text {peer : PeerConfig} {version : Bytes}
    (hversion : config.tincdVersion = some version)
    (hpublickey : lineFeed ∉ peer.ed25519publickey) :
    keptLines lineFeed isSubnetLine (ed25519Text config peer) = [] ↔
      ¬ SubnetInOwnKey config peer.name := by
  have hnil : keptLines lineFeed isSubnetLine [] = [] := rfl
  have hown : SubnetInOwnKey config peer.name ↔ peer.name = config.peerid ∧
      0 < strnatcmp version (ascii "1.1") ∧
        ∃ line ∈ ((stringGet config.ed25519publickey).getD []).splitOn lineFeed,
          StartsWith subnetKeyword line := by
    simp [SubnetInOwnKey, hversion]
  rw [hown, ed25519Text, hversion, Option.getD_some]
  split
  · rename_i hnew
    split
    · rename_i hname
      have hiff : keptLines lineFeed isSubnetLine ((stringGet config.ed25519publickey).getD []) =
          [] ↔ ¬ (peer.name = config.peerid ∧ 0 < strnatcmp version (ascii "1.1") ∧
            ∃ line ∈ ((stringGet config.ed25519publickey).getD []).splitOn lineFeed,
              StartsWith subnetKeyword line) := by
        rw [keptLines_eq_nil]
        simp only [hname, hnew, true_and]
      dsimp only
      split
      · rw [keptLines_snoc, hiff]
      · rename_i hempty
        have hgetD : (stringGet config.ed25519publickey).getD [] = [] := by
          simpa [strIsNonempty, strIsEmpty] using hempty
        rwa [hgetD] at hiff ⊢
    · rename_i hname
      have hline : keptLines lineFeed isSubnetLine
          (ascii "Ed25519PublicKey=" ++ peer.ed25519publickey) = [] := by
        rw [keptLines_line, isSubnetLine_setting _ (by decide)]
        · rfl
        · rw [List.mem_append, not_or]
          exact ⟨by decide, hpublickey⟩
      split
      · rw [keptLines_snoc, hline]
        simp [hname]
      · simp [hnil, hname]
  · rename_i hold
    simp [hnil, hold]

/-- Unchecked subnets come in through key blocks and through the own key file, and through
nothing else. -/
theorem only_checked_subnets_iff {data file : Bytes} {peer : PeerConfig} {s : PeerSection}
    (hpeer : (peer, s) ∈ parsedSections libc data)
    (hfile : tincGeneratePeerConfig libc config peer = some file) :
    OnlyCheckedSubnets libc s file ↔
      ¬ KeyHolds (StartsWith subnetKeyword) s.lines ∧ ¬ SubnetInOwnKey config s.name := by
  obtain ⟨hs, rfl⟩ := mem_parsedSections hpeer
  have hlines : ∀ line ∈ s.lines, lineFeed ∉ line := fun line hline => not_mem_line hs hline
  obtain ⟨version, hversion⟩ := Option.isSome_iff_exists.mp (isSome_tincdVersion hfile)
  rw [tincGeneratePeerConfig_eq _ (Option.isSome_of_eq_some hversion)] at hfile
  obtain rfl := Option.some.inj hfile
  have htexts : ∀ get ∈ textFields, lineFeed ∉ get (parseSection libc s) := not_mem_text hlines
  have hsubnets : ∀ subnet ∈ (parseSection libc s).network ++ (parseSection libc s).network6,
      lineFeed ∉ subnet := by
    rw [network_parseSection, network6_parseSection, List.forall_mem_append]
    exact ⟨not_mem_checkedSubnets hlines, not_mem_checkedSubnets hlines⟩
  have hkey : keptLines lineFeed isSubnetLine (parseSection libc s).key = [] ↔ _ :=
    keptLines_key (by decide) (by decide +kernel) hlines
  have hown := keptLines_ed25519Text hversion (htexts (fun p => p.ed25519publickey) (by
    simp [textFields]))
  rw [OnlyCheckedSubnets, keptLines_hostText htexts hsubnets, network_parseSection,
    network6_parseSection, List.append_right_eq_self, List.append_eq_nil_iff, hkey, hown,
    name_parseSection]

/-! Two sections -/

def beaconConfig : Config where
  peerid := ascii "office"
  networkname := ascii "vpn"
  basePath := ascii "/etc/tinc/vpn"
  tincdVersion := some (ascii "1.0.36")

/-- A section with one more line in its key block. -/
def beaconText (line : Bytes) : Bytes :=
  ascii "[beacon]\nnetwork=10.1.0.0/16\n" ++ beginKey ++ [lineFeed] ++ line ++ [lineFeed] ++
    endKey ++ [lineFeed]

def beaconSection (line : Bytes) : PeerSection where
  name := ascii "beacon"
  lines := [ascii "network=10.1.0.0/16", beginKey, line, endKey]

theorem only_checked_subnets_beacon :
    OnlyCheckedSubnets plainLibrary (beaconSection (ascii "MIIBCgKCAQEA"))
      (hostText beaconConfig (parseSection plainLibrary (beaconSection (ascii "MIIBCgKCAQEA")))) := by
  have hpeer : (parseSection plainLibrary (beaconSection (ascii "MIIBCgKCAQEA")),
      beaconSection (ascii "MIIBCgKCAQEA")) ∈
        parsedSections plainLibrary (beaconText (ascii "MIIBCgKCAQEA")) := by
    decide +kernel
  refine (only_checked_subnets_iff hpeer (tincGeneratePeerConfig_eq _ rfl)).mpr ⟨?_, ?_⟩
  · rintro ⟨before, line, after, heq, -, hline, -⟩
    have hnone : ∀ l ∈ (beaconSection (ascii "MIIBCgKCAQEA")).lines,
        ¬ StartsWith subnetKeyword l := by decide +kernel
    exact hnone line (by simp [heq]) hline
  · exact fun h => absurd h.1 (by decide)

def UncheckedSubnet (libc : CLibrary) (file item : Bytes) : Prop :=
  ascii "Subnet=" ++ item ∈ file.splitOn lineFeed ∧
    ∀ family, addrmaskVerifySubnet libc item (some family) = false

/-- The client reads this text, and a line of the file is a subnet that it never checked. -/
theorem key_line_unchecked :
    let s := beaconSection (ascii "Subnet=0.0.0.0/0#1")
    let peer := parseSection plainLibrary s
    (peer, s) ∈ parsedSections plainLibrary (beaconText (ascii "Subnet=0.0.0.0/0#1")) ∧
      ∃ file, tincGeneratePeerConfig plainLibrary beaconConfig peer = some file ∧
        UncheckedSubnet plainLibrary file (ascii "0.0.0.0/0#1") ∧
        ¬ OnlyCheckedSubnets plainLibrary s file := by
  have hverify : ∀ family,
      addrmaskVerifySubnet plainLibrary (ascii "0.0.0.0/0#1") (some family) = false := by
    intro family
    cases family <;> decide +kernel
  refine ⟨by decide +kernel, _, tincGeneratePeerConfig_eq _ rfl, ⟨by decide +kernel, hverify⟩, ?_⟩
  unfold OnlyCheckedSubnets
  decide +kernel

end ChaosVpn.HostFile
