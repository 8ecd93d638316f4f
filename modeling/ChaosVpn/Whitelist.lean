import ChaosVpn.RouteSequence

/-! The whitelist of subnets from config_init to the scripts. Entries that are no
subnets are dropped, and what is left decides which routes of the peers are written as
commands. -/

namespace ChaosVpn.Whitelist
open CStrings Libc AddrMask SubnetMatch Settings PeerParser RouteScript RouteLines RouteSequence

def parseAndFreeRawSubnetlist (libc : CLibrary) : Option (List SettingsListEntry) → List AddrInfo
  | none => []
  | some raw => raw.filterMap fun
    | .integer _ => none
    | .string s => addrmaskParse libc s

def withWhitelist (libc : CLibrary) (config : Config)
    (whitelistSubnetsRaw : Option (List SettingsListEntry)) : Config :=
  { config with whitelistSubnets := parseAndFreeRawSubnetlist libc whitelistSubnetsRaw }

/-- The part of config_init that is about the whitelist. -/
def configInitWhitelist (libc : CLibrary) (config : Config)
    (whitelistSubnetsRaw : Option (List SettingsListEntry)) : Option Config :=
  let config := withWhitelist libc config whitelistSubnetsRaw
  if config.whitelistSubnets ≠ [] ∧ config.useDynamicRoutes then none else some config

/-! The routes of the peers in a script -/

structure PeerRoute where
  family : Family
  subnet : Bytes
  mark : Option Bytes

def PeerRoute.text (libc : CLibrary) (config : Config) (up : Bool) (route : PeerRoute) :
    Option Bytes :=
  let mark := match route.mark with
    | some reason => comment ++ reason
    | none => []
  concatAll [some mark, concatF libc ((routecmd config up route.family).getD []) route.subnet,
    some (ascii "\n")]

def familyRoutes (libc : CLibrary) (config : Config) (up : Bool) (peer : PeerConfig)
    (family : Family) : List PeerRoute :=
  if hasRoutes config up family then
    (networks peer family).map fun text =>
      ⟨family, (strSplitAt hash text).1, routeMark libc config (strSplitAt hash text).1⟩
  else []

def nodeRoutes (libc : CLibrary) (config : Config) (up : Bool) (peer : PeerConfig) :
    List PeerRoute :=
  if peer.name = config.peerid then []
  else if tincCheckIfExcluded config peer.name then []
  else familyRoutes libc config up peer .inet ++ familyRoutes libc config up peer .inet6

def nodeComment (libc : CLibrary) (config : Config) (peer : PeerConfig) : Option Bytes :=
  if peer.name = config.peerid then some []
  else if tincCheckIfExcluded config peer.name then
    concatF libc (comment ++ ascii "excluded node: %s\n") peer.name
  else concatF libc (comment ++ ascii "node: %s\n") peer.name

/-- What the loop over the peers writes: comments and routes. -/
def peerTexts (libc : CLibrary) (config : Config) (up : Bool) (peers : List PeerConfig) :
    List (Option Bytes) :=
  peers.flatMap fun peer =>
    nodeComment libc config peer ::
      (nodeRoutes libc config up peer).map (PeerRoute.text libc config up)

def peerRoutes (libc : CLibrary) (config : Config) (up : Bool) (peers : List PeerConfig) :
    List PeerRoute :=
  peers.flatMap (nodeRoutes libc config up)

variable {libc : CLibrary} {config : Config} {up : Bool}

theorem subnetLines_eq_routes (peer : PeerConfig) (family : Family) :
    subnetLines libc config up family (networks peer family) =
      concatAll ((familyRoutes libc config up peer family).map
        (PeerRoute.text libc config up)) := by
  unfold subnetLines familyRoutes
  split
  · rw [List.map_map]
    rfl
  · rfl

theorem nodeLines_eq_routes (peer : PeerConfig) :
    nodeLines libc config up peer = concatAll (nodeComment libc config peer ::
      (nodeRoutes libc config up peer).map (PeerRoute.text libc config up)) := by
  unfold nodeLines nodeComment nodeRoutes
  split
  · rfl
  · split
    · simp [concatAll]
    · have hinet : subnetLines libc config up .inet peer.network = _ :=
        subnetLines_eq_routes peer .inet
      have hinet6 : subnetLines libc config up .inet6 peer.network6 = _ :=
        subnetLines_eq_routes peer .inet6
      rw [hinet, hinet6, List.map_append, concatAll_cons, concatAll_cons _ (_ ++ _),
        concatAll_append]

/-- The script as its comments and routes. -/
theorem tincWriteUpdown_eq_routes (hstatic : config.useDynamicRoutes = false)
    (peers : List PeerConfig) :
    tincWriteUpdown libc config peers up =
      (concatAll [scriptHead libc config up, supernetLines libc config up,
        concatAll (peerTexts libc config up peers), some (scriptFoot config up)]).map fun contents =>
          ⟨config.basePath ++ ascii (if up then "/tinc-up" else "/tinc-down"), contents, 0o700⟩ := by
  have hnodes : (fun peer => nodeLines libc config up peer) = fun peer =>
      concatAll (nodeComment libc config peer ::
        (nodeRoutes libc config up peer).map (PeerRoute.text libc config up)) :=
    funext nodeLines_eq_routes
  rw [tincWriteUpdown, hstatic, if_neg Bool.false_ne_true, peerTexts, concatAll_flatMap, ← hnodes]

/-! What the whitelist lets through -/

def HasSubnet (libc : CLibrary) (raw : List SettingsListEntry) : Prop :=
  ∃ s, SettingsListEntry.string s ∈ raw ∧ (addrmaskParse libc s).isSome = true

/-- The network lies in the subnet of a valid entry. -/
def Listed (libc : CLibrary) (raw : List SettingsListEntry) (subnet : Bytes) : Prop :=
  ∃ s entry q, SettingsListEntry.string s ∈ raw ∧ addrmaskParse libc s = some entry ∧
    addrmaskParse libc subnet = some q ∧ entry.addrFamily = q.addrFamily ∧
      addresses q ⊆ addresses entry

/-- The routes that are no comments go to listed networks. -/
def FailsClosed (libc : CLibrary) (raw : List SettingsListEntry) (routes : List PeerRoute) : Prop :=
  ∀ route ∈ routes, route.mark = none → Listed libc raw route.subnet

/-- Some peer has a network that is neither merged nor ignored. -/
def Unrestricted (libc : CLibrary) (config : Config) (peers : List PeerConfig) : Prop :=
  ∃ peer ∈ routedPeers config peers, ∃ family, hasRoutes config true family = true ∧
    ∃ text ∈ networks peer family,
      (addrmaskMatch libc config.mergeroutesSupernet (strSplitAt hash text).1).isNone = true ∧
        (addrmaskMatch libc config.ignoreSubnets (strSplitAt hash text).1).isNone = true

theorem mem_parseAndFreeRawSubnetlist {raw : List SettingsListEntry} {entry : AddrInfo} :
    entry ∈ parseAndFreeRawSubnetlist libc (some raw) ↔
      ∃ s, SettingsListEntry.string s ∈ raw ∧ addrmaskParse libc s = some entry := by
  rw [parseAndFreeRawSubnetlist, List.mem_filterMap]
  constructor
  · rintro ⟨item, hitem, hparse⟩
    cases item with
    | integer i => cases hparse
    | string s => exact ⟨s, hitem, hparse⟩
  · rintro ⟨s, hs, hparse⟩
    exact ⟨.string s, hs, hparse⟩

theorem hasSubnet_iff {raw : List SettingsListEntry} :
    HasSubnet libc raw ↔ parseAndFreeRawSubnetlist libc (some raw) ≠ [] := by
  constructor
  · rintro ⟨s, hs, hsome⟩
    obtain ⟨entry, hentry⟩ := Option.isSome_iff_exists.mp hsome
    exact List.ne_nil_of_mem (mem_parseAndFreeRawSubnetlist.mpr ⟨s, hs, hentry⟩)
  · intro hne
    obtain ⟨entry, hentry⟩ := List.exists_mem_of_ne_nil _ hne
    obtain ⟨s, hs, hparse⟩ := mem_parseAndFreeRawSubnetlist.mp hentry
    exact ⟨s, hs, Option.isSome_of_eq_some hparse⟩

theorem mem_familyRoutes {peer : PeerConfig} {family : Family} {route : PeerRoute} :
    route ∈ familyRoutes libc config up peer family ↔
      hasRoutes config up family = true ∧ ∃ text ∈ networks peer family,
        route = ⟨family, (strSplitAt hash text).1,
          routeMark libc config (strSplitAt hash text).1⟩ := by
  unfold familyRoutes
  split
  · rename_i hroutes
    rw [List.mem_map]
    constructor
    · rintro ⟨text, htext, rfl⟩
      exact ⟨hroutes, text, htext, rfl⟩
    · rintro ⟨-, text, htext, rfl⟩
      exact ⟨text, htext, rfl⟩
  · rename_i hroutes
    exact iff_of_false List.not_mem_nil fun h => hroutes h.1

theorem mem_nodeRoutes {peer : PeerConfig} {route : PeerRoute} :
    route ∈ nodeRoutes libc config up peer ↔
      peer.name ≠ config.peerid ∧ tincCheckIfExcluded config peer.name = false ∧
        ∃ family, route ∈ familyRoutes libc config up peer family := by
  unfold nodeRoutes
  split
  · rename_i hself
    exact iff_of_false List.not_mem_nil fun h => h.1 hself
  · rename_i hself
    split
    · rename_i hexcluded
      exact iff_of_false List.not_mem_nil fun h => Bool.false_ne_true (h.2.1.symm.trans hexcluded)
    · rename_i hexcluded
      rw [List.mem_append]
      constructor
      · rintro (h | h)
        · exact ⟨hself, Bool.not_eq_true _ ▸ hexcluded, .inet, h⟩
        · exact ⟨hself, Bool.not_eq_true _ ▸ hexcluded, .inet6, h⟩
      · rintro ⟨-, -, family, h⟩
        cases family with
        | inet => exact Or.inl h
        | inet6 => exact Or.inr h

theorem mem_routedPeers {peers : List PeerConfig} {peer : PeerConfig} :
    peer ∈ routedPeers config peers ↔
      peer ∈ peers ∧ peer.name ≠ config.peerid ∧ tincCheckIfExcluded config peer.name = false := by
  simp [routedPeers]

/-- A network of a routed peer whose route is no comment. -/
theorem exists_open_route {peers : List PeerConfig} {subnet : Bytes} :
    (∃ route ∈ peerRoutes libc config up peers, route.mark = none ∧ route.subnet = subnet) ↔
      ∃ peer ∈ routedPeers config peers, ∃ family, hasRoutes config up family = true ∧
        ∃ text ∈ networks peer family, (strSplitAt hash text).1 = subnet ∧
          Kept libc config subnet := by
  simp only [peerRoutes, List.mem_flatMap, mem_nodeRoutes, mem_familyRoutes, mem_routedPeers]
  constructor
  · rintro ⟨route, ⟨peer, hpeer, hself, hexcluded, family, hroutes, text, htext, rfl⟩, hmark, rfl⟩
    exact ⟨peer, ⟨hpeer, hself, hexcluded⟩, family, hroutes, text, htext, rfl,
      routeMark_eq_none_iff.mp hmark⟩
  · rintro ⟨peer, ⟨hpeer, hself, hexcluded⟩, family, hroutes, text, htext, rfl, hkept⟩
    exact ⟨_, ⟨peer, hpeer, hself, hexcluded, family, hroutes, text, htext, rfl⟩,
      routeMark_eq_none_iff.mpr hkept, rfl⟩

theorem listed_of_match {raw : List SettingsListEntry} {subnet : Bytes}
    (h : (addrmaskMatch libc (parseAndFreeRawSubnetlist libc (some raw)) subnet).isSome = true) :
    Listed libc raw subnet := by
  obtain ⟨entry, hmatch⟩ := Option.isSome_iff_exists.mp h
  obtain ⟨q, hparse, -⟩ := Option.bind_eq_some_iff.mp hmatch
  obtain ⟨hmem, hcontains⟩ := addrmaskMatch_contains hparse hmatch
  obtain ⟨s, hs, hentry⟩ := mem_parseAndFreeRawSubnetlist.mp hmem
  exact ⟨s, entry, q, hs, hentry, hparse, hcontains.1.1,
    (contains_iff_subset hcontains.1.1).mp hcontains⟩

theorem failsClosed_whitelist (libc : CLibrary) (config : Config) (raw : List SettingsListEntry)
    (peers : List PeerConfig) :
    FailsClosed libc raw (peerRoutes libc (withWhitelist libc config (some raw)) true peers) ↔
      HasSubnet libc raw ∨ ¬ Unrestricted libc config peers := by
  constructor
  · intro hclosed
    by_contra hnot
    obtain ⟨hnone, hopen⟩ := not_or.mp hnot
    obtain ⟨peer, hpeer, family, hroutes, text, htext, hmerge, hignore⟩ := not_not.mp hopen
    have hkept : Kept libc (withWhitelist libc config (some raw)) (strSplitAt hash text).1 :=
      ⟨hmerge, hignore, fun hne => absurd (hasSubnet_iff.mpr hne) hnone⟩
    have hwritten : ∃ route ∈ peerRoutes libc (withWhitelist libc config (some raw)) true peers,
        route.mark = none ∧ route.subnet = (strSplitAt hash text).1 :=
      exists_open_route.mpr ⟨peer, hpeer, family, hroutes, text, htext, rfl, hkept⟩
    obtain ⟨route, hroute, hmark, -⟩ := hwritten
    obtain ⟨s, entry, -, hs, hentry, -⟩ := hclosed route hroute hmark
    exact hnone ⟨s, hs, Option.isSome_of_eq_some hentry⟩
  · intro h route hroute hmark
    obtain ⟨peer, hpeer, family, hroutes, text, htext, hsubnet, hmerge, hignore, hwhitelist⟩ :=
      exists_open_route.mp ⟨route, hroute, hmark, rfl⟩
    rcases h with hlist | hclosed
    · exact listed_of_match (hwhitelist (hasSubnet_iff.mp hlist))
    · rw [← hsubnet] at hmerge hignore
      exact absurd ⟨peer, hpeer, family, hroutes, text, htext, hmerge, hignore⟩ hclosed

theorem configInitWhitelist_static {raw : Option (List SettingsListEntry)}
    (hstatic : config.useDynamicRoutes = false) :
    configInitWhitelist libc config raw = some (withWhitelist libc config raw) :=
  if_neg fun h => Bool.false_ne_true (hstatic.symm.trans h.2)

/-- A valid entry is enough for the whitelist to hold; without one it lets through every
network that is neither merged nor ignored. -/
theorem failsClosed_iff (libc : CLibrary) (config config' : Config) (raw : List SettingsListEntry)
    (peers : List PeerConfig) (hstatic : config.useDynamicRoutes = false)
    (hinit : configInitWhitelist libc config (some raw) = some config') :
    tincWriteUpdown libc config' peers true =
        (concatAll [scriptHead libc config' true, supernetLines libc config' true,
          concatAll (peerTexts libc config' true peers), some (scriptFoot config' true)]).map
            (fun contents => ⟨config'.basePath ++ ascii "/tinc-up", contents, 0o700⟩) ∧
      (FailsClosed libc raw (peerRoutes libc config' true peers) ↔
        HasSubnet libc raw ∨ ¬ Unrestricted libc config peers) := by
  rw [configInitWhitelist_static hstatic] at hinit
  obtain rfl := Option.some.inj hinit
  have hwritten : (withWhitelist libc config (some raw)).useDynamicRoutes = false := hstatic
  exact ⟨tincWriteUpdown_eq_routes hwritten peers, failsClosed_whitelist libc config raw peers⟩

/-- A whitelist whose one subnet has a prefix that is too long. -/
def misspelt : List SettingsListEntry := [.string (ascii "172.31.2.0/33")]

theorem misspelt_lets_through :
    ∃ config, configInitWhitelist plainLibrary officeConfig (some misspelt) = some config ∧
      config.whitelistSubnets = [] ∧
        ¬ FailsClosed plainLibrary misspelt (peerRoutes plainLibrary config true officePeers) := by
  have hinvalid : addrmaskParse plainLibrary (ascii "172.31.2.0/33") = none := by decide
  refine ⟨withWhitelist plainLibrary officeConfig (some misspelt),
    configInitWhitelist_static rfl, by decide, fun hclosed => ?_⟩
  have hopen : (peerRoutes plainLibrary (withWhitelist plainLibrary officeConfig (some misspelt))
      true officePeers).any (fun route => route.mark.isNone) = true := by
    decide
  obtain ⟨route, hroute, hmark⟩ := List.any_eq_true.mp hopen
  obtain ⟨s, entry, -, hs, hentry, -⟩ := hclosed route hroute (Option.isNone_iff_eq_none.mp hmark)
  rw [misspelt, List.mem_singleton] at hs
  cases hs
  rw [hinvalid] at hentry
  cases hentry

theorem failsClosed_office :
    FailsClosed plainLibrary (.string (ascii "172.31.0.0/16") :: misspelt)
      (peerRoutes plainLibrary (withWhitelist plainLibrary officeConfig
        (some (.string (ascii "172.31.0.0/16") :: misspelt))) true officePeers) :=
  (failsClosed_iff plainLibrary officeConfig _ _ officePeers rfl
    (configInitWhitelist_static rfl)).2.mpr
      (Or.inl ⟨ascii "172.31.0.0/16", by simp, by decide⟩)

end ChaosVpn.Whitelist
