import ChaosVpn.HostFile
import ChaosVpn.RouteLines

/-! Subnets with a weight: what the parser, the host file and the routes make of a text `s#w`. -/

namespace ChaosVpn.RouteWeights
open CStrings Libc AddrMask Settings PeerParser ParserLines RouteScript HostFile
open RouteLines (networks)

def weighted (s w : Bytes) : Bytes := s ++ hash :: w

def networkKeyword : Family → Bytes
  | .inet => ascii "network="
  | .inet6 => ascii "network6="

def setNetworks (p : PeerConfig) : Family → List Bytes → PeerConfig
  | .inet, network => { p with network }
  | .inet6, network6 => { p with network6 }

/-- The peer with one subnet more. -/
def withNetwork (p : PeerConfig) (family : Family) (subnet : Bytes) : PeerConfig :=
  setNetworks p family (networks p family ++ [subnet])

/-- A line that gives an accepted subnet of its family a numeral for a weight. -/
structure WeightLine (libc : CLibrary) (family : Family) (s w token : Bytes) : Prop where
  accepted : addrmaskVerifySubnet libc s (some family) = true
  numeral : strAlldig w = true
  line : parserCheckConfigitem (strTrim token) (networkKeyword family) = some (weighted s w)

/-- What becomes of a peer `p'` whose section has the line: the subnet is stored and in the host
file, and tinc-up has the route of the subnet without its weight. -/
structure Agree (libc : CLibrary) (config : Config) (p : PeerConfig) (family : Family)
    (s w : Bytes) (p' : PeerConfig) : Prop where
  stored : p' = withNetwork p family (weighted s w)
  host : ∀ file, tincGeneratePeerConfig libc config p' = some file →
    [lineFeed] ++ ascii "Subnet=" ++ weighted s w ++ [lineFeed] <:+: file
  routes : ∀ before after : List PeerConfig,
    tincWriteUpdown libc config (before ++ p' :: after) true =
      tincWriteUpdown libc config (before ++ withNetwork p family s :: after) true

variable {libc : CLibrary} {config : Config} {family : Family} {s w token : Bytes}
  {p : PeerConfig}

theorem parserParseLine_network {item : Bytes}
    (h : parserCheckConfigitem (strTrim token) (networkKeyword family) = some item)
    (complete : List PeerConfig) (p : PeerConfig) (keyMode : Bool) :
    parserParseLine libc ⟨complete, some p, keyMode⟩ token =
      ⟨complete, some (setNetworks p family (addSubnet libc family (networks p family) item)),
        keyMode⟩ := by
  cases family with
  | inet =>
    have hentry : (ascii "network=", fun item (p : PeerConfig) =>
        { p with network := addSubnet libc .inet p.network item }) ∈ configItems libc := by
      simp [configItems]
    exact parserParseLine_checked hentry h complete p keyMode
  | inet6 =>
    have hentry : (ascii "network6=", fun item (p : PeerConfig) =>
        { p with network6 := addSubnet libc .inet6 p.network6 item }) ∈ configItems libc := by
      simp [configItems]
    exact parserParseLine_checked hentry h complete p keyMode

/-! The writers -/

/-- The script writer cuts the weight off. -/
theorem subnetLine_weighted (hs : hash ∉ s) (routecmd : Bytes) :
    subnetLine libc config routecmd (weighted s w) = subnetLine libc config routecmd s := by
  have hweight : strSplitAt hash (weighted s w) = (s, some w) := strSplitAt_some.mpr ⟨rfl, hs⟩
  have hplain : strSplitAt hash s = (s, none) := strSplitAt_none.mpr ⟨rfl, hs⟩
  rw [subnetLine, subnetLine, hweight, hplain]

theorem subnetLines_weighted (hs : hash ∉ s) (up : Bool) (network : List Bytes) :
    subnetLines libc config up family (network ++ [weighted s w]) =
      subnetLines libc config up family (network ++ [s]) := by
  unfold subnetLines
  rw [List.map_append, List.map_append, List.map_singleton, List.map_singleton,
    subnetLine_weighted hs]

theorem nodeLines_weighted (hs : hash ∉ s) (up : Bool) :
    nodeLines libc config up (withNetwork p family (weighted s w)) =
      nodeLines libc config up (withNetwork p family s) := by
  cases family with
  | inet =>
    simp only [nodeLines, withNetwork, setNetworks, networks, subnetLines_weighted hs]
    rfl
  | inet6 =>
    simp only [nodeLines, withNetwork, setNetworks, networks, subnetLines_weighted hs]
    rfl

theorem tincWriteUpdown_weighted (hs : hash ∉ s) (before after : List PeerConfig) :
    tincWriteUpdown libc config (before ++ withNetwork p family (weighted s w) :: after) true =
      tincWriteUpdown libc config (before ++ withNetwork p family s :: after) true := by
  simp only [tincWriteUpdown, List.map_append, List.map_cons, nodeLines_weighted hs]

theorem line_infix {before : List Bytes} (hne : before ≠ []) (line : Bytes)
    (after : List Bytes) :
    [lineFeed] ++ line ++ [lineFeed] <:+:
      (before ++ line :: after).flatMap (· ++ [lineFeed]) := by
  obtain ⟨first, last, rfl⟩ := (List.eq_nil_or_concat' before).resolve_left hne
  refine ⟨first.flatMap (· ++ [lineFeed]) ++ last, after.flatMap (· ++ [lineFeed]), ?_⟩
  simp

/-- A stored subnet is a line of the host file, with its weight. -/
theorem hostText_subnet (config : Config) (p : PeerConfig) (family : Family) (subnet : Bytes) :
    [lineFeed] ++ (ascii "Subnet=" ++ subnet) ++ [lineFeed] <:+:
      hostText config (withNetwork p family subnet) := by
  have hmem : ascii "Subnet=" ++ subnet ∈ settingLines (withNetwork p family subnet) := by
    cases family <;> simp [settingLines, withNetwork, setNetworks, networks]
  obtain ⟨before, after, heq⟩ := List.append_of_mem hmem
  have hne : before ≠ [] := by
    rintro rfl
    have hfirst := congrArg List.head? heq
    simp [settingLines, comment, ascii] at hfirst
  have hline := line_infix hne (ascii "Subnet=" ++ subnet) after
  rw [← heq] at hline
  have hsettings : (settingLines (withNetwork p family subnet)).flatMap (· ++ [lineFeed]) <+:
      hostText config (withNetwork p family subnet) := by
    rw [hostText, List.append_assoc, List.append_assoc]
    exact List.prefix_append _ _
  exact hline.trans hsettings.isInfix

/-- Once the weighted text is stored everything else is as it should be. -/
theorem Agree.of_stored (hs : hash ∉ s) :
    Agree libc config p family s w (withNetwork p family (weighted s w)) where
  stored := rfl
  host file hfile := by
    have hversion := isSome_tincdVersion hfile
    rw [tincGeneratePeerConfig_eq _ hversion] at hfile
    cases hfile
    exact hostText_subnet config p family (weighted s w)
  routes := tincWriteUpdown_weighted hs

/-! The validator -/

theorem addrmaskVerifySubnet_weighted (hlibc : NumericTexts libc) (family : Family)
    (s w : Bytes) : addrmaskVerifySubnet libc (weighted s w) (some family) = false := by
  refine Bool.eq_false_iff.mpr fun haccepted => ?_
  obtain ⟨-, addr, hparse, -⟩ := addrmaskVerifySubnet_iff.mp haccepted
  exact (unmarked_of_addrmaskParse hlibc hparse).not_mem.1 (by simp [weighted])

theorem setNetworks_networks (p : PeerConfig) (family : Family) :
    setNetworks p family (networks p family) = p := by
  cases family <;> rfl

theorem withNetwork_ne (p : PeerConfig) (family : Family) (subnet : Bytes) :
    p ≠ withNetwork p family subnet := by
  intro heq
  have hnetworks := congrArg (fun p => (networks p family).length) heq
  cases family <;> simp [withNetwork, setNetworks, networks] at hnetworks

/-- The line leaves the peer as it was. -/
theorem parserParseLine_weighted (hlibc : NumericTexts libc)
    (h : WeightLine libc family s w token) (complete : List PeerConfig) (p : PeerConfig)
    (keyMode : Bool) :
    parserParseLine libc ⟨complete, some p, keyMode⟩ token = ⟨complete, some p, keyMode⟩ := by
  have hrejected := addrmaskVerifySubnet_weighted hlibc family s w
  rw [parserParseLine_network h.line, addSubnet, if_neg (by simp [hrejected]),
    setNetworks_networks]

/-- Whatever the subnet and its weight are, the parser does not agree with the writers. -/
theorem never_agrees (hlibc : NumericTexts libc) (h : WeightLine libc family s w token)
    (complete : List PeerConfig) (p : PeerConfig) (keyMode : Bool) :
    ¬ ∃ p', (parserParseLine libc ⟨complete, some p, keyMode⟩ token).myConfig = some p' ∧
      Agree libc config p family s w p' := by
  rintro ⟨p', hp', hagree⟩
  rw [parserParseLine_weighted hlibc h] at hp'
  cases hp'
  exact withNetwork_ne p family (weighted s w) hagree.stored

def gate : PeerConfig := parserCreateConfig (ascii "gate")

theorem weightLine_gate : WeightLine plainLibrary .inet (ascii "10.0.0.0/24") (ascii "5")
    (ascii "network=10.0.0.0/24#5") where
  accepted := by decide
  numeral := by decide
  line := by decide

theorem never_agrees_gate : ¬ ∃ p', (parserParseLine plainLibrary ⟨[], some gate, false⟩
      (ascii "network=10.0.0.0/24#5")).myConfig = some p' ∧
    Agree plainLibrary beaconConfig gate .inet (ascii "10.0.0.0/24") (ascii "5") p' :=
  never_agrees numericTexts_plainLibrary weightLine_gate [] gate false

/-- The text is not stored though the subnet without its weight is. -/
theorem weight_rejected :
    (parserParseLine plainLibrary ⟨[], some gate, false⟩ (ascii "network=10.0.0.0/24")).myConfig =
        some (withNetwork gate .inet (ascii "10.0.0.0/24")) ∧
      (parserParseLine plainLibrary ⟨[], some gate, false⟩
        (ascii "network=10.0.0.0/24#5")).myConfig = some gate ∧
      ¬ Agree plainLibrary beaconConfig gate .inet (ascii "10.0.0.0/24") (ascii "5") gate := by
  refine ⟨?_, ?_, fun hagree => withNetwork_ne gate .inet _ hagree.stored⟩
  · have hline : parserCheckConfigitem (strTrim (ascii "network=10.0.0.0/24"))
        (networkKeyword .inet) = some (ascii "10.0.0.0/24") := by decide
    rw [parserParseLine_network hline, addSubnet, if_pos weightLine_gate.accepted]
    rfl
  · rw [parserParseLine_weighted numericTexts_plainLibrary weightLine_gate]

end ChaosVpn.RouteWeights
