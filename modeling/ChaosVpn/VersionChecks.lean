import ChaosVpn.Library.Traced
import ChaosVpn.OldDaemon
import ChaosVpn.TincConf

/-! The comparisons with the version of tincd. It is NULL when tinc_get_version cannot
make it out, which config_init only warns of, and strnatcmp0 asserts that neither of its
arguments is NULL. The functions that compare are gone through again with these calls. -/

namespace ChaosVpn.VersionChecks
open CStrings StringBuffer Libc Settings PeerParser RouteScript HostFile HostsDirectory
open ExcludedNodes StrNatCmp OldDaemon

/-- The arguments of a call of strnatcmp. -/
structure VersionCall where
  a : Option Bytes
  b : Option Bytes

def VersionCall.NonNull (c : VersionCall) : Prop := c.a.isSome = true ∧ c.b.isSome = true

/-- The assertion ends the program. -/
def strnatcmpChecked (a b : Option Bytes) : Traced VersionCall Int :=
  ⟨[⟨a, b⟩], a.bind fun a => b.map (strnatcmp a)⟩

/-! config_init -/

def tincGetVersion (tincdOutput : Bytes) : Option Bytes :=
  let text := cstr tincdOutput
  if text.take 13 ≠ ascii "tinc version " then none
  else some (strSplitAt space (text.drop 13)).1

/-- `config->tincd_version && (strnatcmp(config->tincd_version, version) > 0)` -/
def versionIsAbove (config : Config) (version : Bytes) : Traced VersionCall Bool :=
  if config.tincdVersion.isSome then do
    let order ← strnatcmpChecked config.tincdVersion (some version)
    pure (order > 0)
  else pure false

/-- `tinc` in the directory of the tincd binary. -/
def tincctlBeside (tincdBin : Bytes) : Bytes :=
  let directory := (tincdBin.reverse.dropWhile (· ≠ slash)).reverse
  (directory.take 1023 ++ ascii "tinc").take 1023

/-- The end of config_init, behind which it returns true. -/
def configInitEnd (config : Config) (tincdBin tincdOutput : Bytes) : Traced VersionCall Config := do
  let config := { config with tincdVersion := tincGetVersion tincdOutput }
  let newer ← versionIsAbove config (ascii "1.1")
  pure { config with
    tincctlBin := if newer then config.tincctlBin.or (some (tincctlBeside tincdBin)) else none
    tincdPidfile := config.tincdPidfile.or
      (some ((ascii "/var/run/tinc." ++ config.networkname ++ ascii ".pid").take 1023))
    tmpconffile := config.tmpconffile.or
      (some ((config.basePath ++ ascii "/data.sav").take 1023)) }

/-! The functions that compare -/

/-- Whether there is a warning. -/
def mainWarnAboutOldTincd (config : Config) : Traced VersionCall Bool :=
  if config.tincdVersion.isSome then do
    let order ← strnatcmpChecked config.tincdVersion (some (ascii "1.0.12"))
    pure (order ≤ 0)
  else pure false

def onlyToPrimaryNodes (config : Config) : Traced VersionCall Bool :=
  if config.connectOnlyToPrimaryNodes then versionIsAbove config (ascii "1.0.12") else pure false

def connectsTo (config : Config) (i : PeerConfig) : Traced VersionCall Bool :=
  if i.name = config.peerid then pure false
  else if tincCheckIfExcluded config i.name then pure false
  else do
    let only ← onlyToPrimaryNodes config
    pure (if only && !i.primary then false else !i.gatewayhost.isEmpty && !i.hidden)

def connectToLine (libc : CLibrary) (config : Config) (i : PeerConfig) :
    Traced VersionCall Bytes := do
  let connects ← connectsTo config i
  Traced.ofOption (if connects then concatF libc (ascii "ConnectTo=%s\n") i.name else some [])

/-- The lines that depend on the version. -/
def versionLine (config : Config) (version : Bytes) (line : Bool → Option Bytes) :
    Traced VersionCall Bytes := do
  let newer ← versionIsAbove config version
  Traced.ofOption (line newer)

def tincConf (libc : CLibrary) (config : Config) (myPeer : PeerConfig)
    (peerConfig : List PeerConfig) : Traced VersionCall Bytes :=
  Traced.concat
    [.ofOption (some (comment ++ ascii "this is an autogenerated file - do not edit!\n\n")),
     .ofOption (TincConf.optionLine libc (ascii "AddressFamily=%s\n") config.myAddressfamily),
     .ofOption (TincConf.optionLine libc (ascii "BindToAddress=%s\n")
       (TincConf.bindToAddress config)),
     .ofOption (TincConf.optionLine libc (ascii "Interface=%s\n") config.tincdInterface),
     .ofOption (TincConf.optionLine libc (ascii "Device=%s\n") config.tincdDevice),
     .ofOption (some (ascii "Mode=router\n")),
     .ofOption (concatF libc (ascii "Name=%s\n") config.peerid),
     .ofOption (some (ascii "Hostnames=no\n")),
     .ofOption (some (ascii "PingTimeout=60\n")),
     versionLine config (ascii "1.0.12") fun newer =>
       some (if newer then ascii "StrictSubnets=yes\n" else ascii "TunnelServer=yes\n"),
     versionLine config (ascii "1.0.16") fun newer =>
       if newer then concatYn libc (ascii "LocalDiscovery=%s\n") config.localdiscovery
       else some [],
     versionLine config (ascii "1.0.16") fun newer =>
       if newer then some (ascii "Broadcast=no\n") else some [],
     .ofOption (TincConf.optionLine libc (ascii "GraphDumpFile=%s\n") config.tincdGraphdumpfile),
     .ofOption (TincConf.optionLine libc (ascii "%s\n") config.tincdRawConfig),
     if myPeer.silent then pure []
     else Traced.concat (peerConfig.map (connectToLine libc config))]

def tincWriteConfig (libc : CLibrary) (config : Config) (myPeer : PeerConfig)
    (peerConfig : List PeerConfig) (openFile : Bool) (written : Nat) (file : Option Bytes) :
    Traced VersionCall (Option Bytes × Bool) := do
  let buffer ← tincConf libc config myPeer peerConfig
  pure (TincConf.fsWritecontents openFile written file buffer)

/-- This comparison is made without a look at the pointer. -/
def ed25519Lines (libc : CLibrary) (config : Config) (peer : PeerConfig) :
    Traced VersionCall Bytes := do
  let order ← strnatcmpChecked config.tincdVersion (some (ascii "1.1"))
  if order > 0 then
    if peer.name = config.peerid then
      let own := stringGet config.ed25519publickey
      pure (if strIsNonempty own then own.getD [] ++ ascii "\n" else [])
    else if !peer.ed25519publickey.isEmpty then
      Traced.ofOption (concatF libc (ascii "Ed25519PublicKey=%s\n") peer.ed25519publickey)
    else pure []
  else pure []

/-- What is appended in front of the Ed25519 key. -/
def peerLines (libc : CLibrary) (peer : PeerConfig) : List (Option Bytes) :=
  [some (comment ++ ascii "this is an autogenerated file - do not edit!\n\n"),
   if !peer.gatewayhost.isEmpty && !peer.hidden then
     concatF libc (ascii "Address=%s\n") peer.gatewayhost
   else some [],
   concatDf libc (ascii "Cipher=%s\n") peer.cipher tincDefaultCipher,
   concatDf libc (ascii "Compression=%s\n") peer.compression tincDefaultCompression,
   concatDf libc (ascii "Digest=%s\n") peer.digest tincDefaultDigest,
   concatYn libc (ascii "IndirectData=%s\n") peer.indirectdata,
   formatted libc (ascii "Port=%d\n") none [.int peer.port],
   tincAddSubnet libc peer.network,
   tincAddSubnet libc peer.network6,
   concatYn libc (ascii "TCPonly=%s\n") peer.useTcpOnly,
   concatF libc (ascii "%s\n\n") peer.key]

def tincGeneratePeerConfig (libc : CLibrary) (config : Config) (peer : PeerConfig) :
    Traced VersionCall Bytes :=
  Traced.concat ((peerLines libc peer).map Traced.ofOption ++ [ed25519Lines libc config peer])

def writeHosts (libc : CLibrary) (config : Config) (outcomes : FileOutcomes) :
    Nat → HostsPath → List PeerConfig → Traced VersionCall (HostsPath × Bool)
  | _, dir, [] => pure (dir, true)
  | count, dir, peer :: peers => do
    let contents ← tincGeneratePeerConfig libc config peer
    match fsWritecontentsSafe outcomes count dir peer.name contents with
    | (dir, true) => writeHosts libc config outcomes (count + 1) dir peers
    | (dir, false) => pure (dir, false)

def tincWriteHosts (libc : CLibrary) (config : Config) (outcomes : FileOutcomes)
    (hosts : HostsPath) (peerConfig : List PeerConfig) :
    Traced VersionCall (HostsPath × Bool) :=
  writeHosts libc config outcomes 0 (fsMkdirP outcomes hosts) peerConfig

/-- Where to look for the pid is all that depends on the version. -/
def tincGetPid (host : Host) (config : Config) : Traced VersionCall Int := do
  let _ ← versionIsAbove config (ascii "1.1")
  pure (OldDaemon.tincGetPid host config)

/-! The results are those of the functions without the calls -/

variable {libc : CLibrary} {config : Config}

theorem result_concat (ts : List (Traced VersionCall Bytes)) :
    (Traced.concat ts).result = concatAll (ts.map (·.result)) := by
  induction ts with
  | nil => rfl
  | cons t ts ih =>
    rw [Traced.concat, List.map_cons, concatAll, ← ih]
    simp [Option.map_eq_bind]

@[simp] theorem result_versionIsAbove (config : Config) (version : Bytes) :
    (versionIsAbove config version).result = some (TincConf.versionAbove config version) := by
  unfold versionIsAbove TincConf.versionAbove
  cases config.tincdVersion <;> simp [strnatcmpChecked]

theorem result_connectToLine (i : PeerConfig) :
    (connectToLine libc config i).result = TincConf.connectToLine libc config i := by
  have hconnects : (connectsTo config i).result = some (TincConf.connectsTo config i) := by
    unfold connectsTo TincConf.connectsTo
    split
    · rfl
    · split
      · rfl
      · cases honly : config.connectOnlyToPrimaryNodes <;> simp [onlyToPrimaryNodes, honly]
  simp [connectToLine, TincConf.connectToLine, hconnects]

theorem result_tincWriteConfig (myPeer : PeerConfig) (peerConfig : List PeerConfig)
    (openFile : Bool) (written : Nat) (file : Option Bytes) :
    (tincWriteConfig libc config myPeer peerConfig openFile written file).result =
      TincConf.tincWriteConfig libc config myPeer peerConfig openFile written file := by
  have hconnects : (peerConfig.map (connectToLine libc config)).map (·.result) =
      peerConfig.map (TincConf.connectToLine libc config) := by
    simp [Function.comp_def, result_connectToLine]
  have hconf : (tincConf libc config myPeer peerConfig).result =
      TincConf.tincConf libc config myPeer peerConfig := by
    rw [tincConf, result_concat, TincConf.tincConf]
    cases myPeer.silent <;>
      simp [versionLine, result_concat, result_connectToLine, Function.comp_def]
  rw [tincWriteConfig, TincConf.tincWriteConfig, Traced.result_bind, hconf]
  cases TincConf.tincConf libc config myPeer peerConfig <;> rfl

theorem result_tincGeneratePeerConfig (peer : PeerConfig) :
    (tincGeneratePeerConfig libc config peer).result =
      HostFile.tincGeneratePeerConfig libc config peer := by
  have hlines : (ed25519Lines libc config peer).result =
      HostFile.ed25519Lines libc config peer := by
    unfold ed25519Lines HostFile.ed25519Lines
    cases config.tincdVersion with
    | none => rfl
    | some version =>
      simp only [strnatcmpChecked, Traced.result_bind, Option.bind_some, Option.map_some]
      split
      · split
        · cases strIsNonempty (stringGet config.ed25519publickey) <;> rfl
        · split <;> rfl
      · rfl
  rw [tincGeneratePeerConfig, result_concat, HostFile.tincGeneratePeerConfig]
  simp [peerLines, hlines]

theorem result_writeHosts (outcomes : FileOutcomes) (peers : List PeerConfig) (count : Nat)
    (dir : HostsPath) :
    (writeHosts libc config outcomes count dir peers).result =
      HostsDirectory.writeHosts libc config outcomes count dir peers := by
  induction peers generalizing count dir with
  | nil => rfl
  | cons peer peers ih =>
    rw [writeHosts, HostsDirectory.writeHosts, Traced.result_bind, result_tincGeneratePeerConfig]
    refine Option.bind_congr fun contents _ => ?_
    rcases hfile : fsWritecontentsSafe outcomes count dir peer.name contents with ⟨dir', _ | _⟩
    · simp only [Traced.result_pure]
    · simp only [ih]

theorem result_tincGetPid (host : Host) :
    (tincGetPid host config).result = some (OldDaemon.tincGetPid host config) := by
  simp [tincGetPid]

/-! The calls -/

/-- Every comparison behind a look at the pointer has two texts. -/
theorem versionIsAbove_nonNull (config : Config) (version : Bytes) :
    Traced.All VersionCall.NonNull (versionIsAbove config version) := by
  unfold versionIsAbove
  split
  · rename_i hknown
    refine Traced.All.bind (fun c hc => ?_) fun order _ => Traced.all_pure _
    obtain rfl := List.mem_singleton.mp hc
    exact ⟨hknown, rfl⟩
  · exact Traced.all_pure false

theorem configInitEnd_nonNull (tincdBin tincdOutput : Bytes) :
    Traced.All VersionCall.NonNull (configInitEnd config tincdBin tincdOutput) :=
  (versionIsAbove_nonNull _ _).bind fun _ _ => Traced.all_pure _

theorem mainWarnAboutOldTincd_nonNull (config : Config) :
    Traced.All VersionCall.NonNull (mainWarnAboutOldTincd config) := by
  unfold mainWarnAboutOldTincd
  split
  · rename_i hknown
    refine Traced.All.bind (fun c hc => ?_) fun order _ => Traced.all_pure _
    obtain rfl := List.mem_singleton.mp hc
    exact ⟨hknown, rfl⟩
  · exact Traced.all_pure false

theorem connectToLine_nonNull (i : PeerConfig) :
    Traced.All VersionCall.NonNull (connectToLine libc config i) := by
  refine Traced.All.bind ?_ fun connects _ => Traced.all_ofOption _
  unfold connectsTo
  split
  · exact Traced.all_pure false
  · split
    · exact Traced.all_pure false
    · refine Traced.All.bind ?_ fun only _ => Traced.all_pure _
      unfold onlyToPrimaryNodes
      split
      · exact versionIsAbove_nonNull _ _
      · exact Traced.all_pure false

theorem versionLine_nonNull (version : Bytes) (line : Bool → Option Bytes) :
    Traced.All VersionCall.NonNull (versionLine config version line) :=
  (versionIsAbove_nonNull _ _).bind fun _ _ => Traced.all_ofOption _

theorem tincWriteConfig_nonNull (myPeer : PeerConfig) (peerConfig : List PeerConfig)
    (openFile : Bool) (written : Nat) (file : Option Bytes) :
    Traced.All VersionCall.NonNull
      (tincWriteConfig libc config myPeer peerConfig openFile written file) := by
  refine Traced.All.bind (Traced.All.concat ?_) fun buffer _ => Traced.all_pure _
  have hconnects : Traced.All VersionCall.NonNull
      (if myPeer.silent then pure [] else
        Traced.concat (peerConfig.map (connectToLine libc config))) := by
    split
    · exact Traced.all_pure []
    · refine Traced.All.concat fun t ht => ?_
      obtain ⟨i, -, rfl⟩ := List.mem_map.mp ht
      exact connectToLine_nonNull i
  simp only [List.forall_mem_cons, Traced.all_ofOption, versionLine_nonNull, hconnects, true_and,
    List.not_mem_nil, false_implies, implies_true]

theorem tincGetPid_nonNull (host : Host) :
    Traced.All VersionCall.NonNull (tincGetPid host config) :=
  (versionIsAbove_nonNull _ _).bind fun _ _ => Traced.all_pure _

/-- Only the host files compare with a version that may be NULL. -/
theorem tincGeneratePeerConfig_nonNull (hknown : config.tincdVersion.isSome = true)
    (peer : PeerConfig) :
    Traced.All VersionCall.NonNull (tincGeneratePeerConfig libc config peer) := by
  refine Traced.All.concat fun t ht => ?_
  rcases List.mem_append.mp ht with ht | ht
  · obtain ⟨line, -, rfl⟩ := List.mem_map.mp ht
    exact Traced.all_ofOption line
  · obtain rfl := List.mem_singleton.mp ht
    refine Traced.All.bind (fun c hc => ?_) fun order _ => ?_
    · obtain rfl := List.mem_singleton.mp hc
      exact ⟨hknown, rfl⟩
    · split
      · split
        · exact Traced.all_pure _
        · split
          · exact Traced.all_ofOption _
          · exact Traced.all_pure _
      · exact Traced.all_pure _

theorem writeHosts_nonNull (hknown : config.tincdVersion.isSome = true) (outcomes : FileOutcomes)
    (peers : List PeerConfig) (count : Nat) (dir : HostsPath) :
    Traced.All VersionCall.NonNull (writeHosts libc config outcomes count dir peers) := by
  induction peers generalizing count dir with
  | nil => exact Traced.all_pure _
  | cons peer peers ih =>
    refine (tincGeneratePeerConfig_nonNull hknown peer).bind fun contents _ => ?_
    split
    · exact ih _ _
    · exact Traced.all_pure _

theorem isSome_peerLines (peer : PeerConfig) :
    ∀ line ∈ peerLines libc peer, line.isSome = true := by
  -- the lines are those of a config whose version is known
  let known : Config := { peerid := [], networkname := [], basePath := [], tincdVersion := some [] }
  have hfile : (HostFile.tincGeneratePeerConfig libc known peer).isSome = true := by
    rw [tincGeneratePeerConfig_eq peer rfl]
    rfl
  intro line hline
  exact isSome_concatAll.mp hfile line
    (List.mem_append_left [HostFile.ed25519Lines libc known peer] hline)

/-- The comparison is made for every peer whose file is written. -/
theorem mem_calls_writeHosts (outcomes : FileOutcomes) (peer : PeerConfig)
    (peers : List PeerConfig) (count : Nat) (dir : HostsPath) :
    ⟨config.tincdVersion, some (ascii "1.1")⟩ ∈
      (writeHosts libc config outcomes count dir (peer :: peers)).calls := by
  refine Traced.calls_subset_bind (Traced.mem_calls_concat (fun t ht => ?_) ?_)
  · obtain ⟨line, hline, rfl⟩ := List.mem_map.mp ht
    exact isSome_peerLines peer line hline
  · exact Traced.calls_subset_bind (List.mem_singleton.mpr rfl)

/-- What the functions run with besides the config and the peers. -/
structure Surroundings where
  libc : CLibrary
  host : Host
  outcomes : FileOutcomes
  hosts : HostsPath
  myPeer : PeerConfig
  openFile : Bool
  written : Nat
  file : Option Bytes

structure NeverNull (around : Surroundings) (config : Config) (peers : List PeerConfig) : Prop where
  mainWarnAboutOldTincd : Traced.All VersionCall.NonNull (mainWarnAboutOldTincd config)
  tincWriteConfig : Traced.All VersionCall.NonNull
    (tincWriteConfig around.libc config around.myPeer peers around.openFile around.written
      around.file)
  tincWriteHosts : Traced.All VersionCall.NonNull
    (tincWriteHosts around.libc config around.outcomes around.hosts peers)
  tincGetPid : Traced.All VersionCall.NonNull (tincGetPid around.host config)

theorem known_of_neverNull {around : Surroundings} {peer : PeerConfig} {peers : List PeerConfig}
    (h : NeverNull around config (peer :: peers)) : config.tincdVersion.isSome = true :=
  (h.tincWriteHosts _ (mem_calls_writeHosts _ _ _ _ _)).1

/-- The host files are where a version that is not known is compared. -/
theorem neverNull_iff (around : Surroundings) (config : Config) (peers : List PeerConfig) :
    NeverNull around config peers ↔ config.tincdVersion.isSome = true ∨ peers = [] := by
  constructor
  · intro h
    cases peers with
    | nil => exact .inr rfl
    | cons peer peers => exact .inl (known_of_neverNull h)
  · intro h
    refine ⟨mainWarnAboutOldTincd_nonNull config, tincWriteConfig_nonNull _ _ _ _ _, ?_,
      tincGetPid_nonNull _⟩
    rcases h with hknown | rfl
    · exact writeHosts_nonNull hknown _ _ _ _
    · exact Traced.all_pure _

/-- A tincd that prints its version in another way, and a network of one peer. -/
theorem unknown_version_compared :
    ∃ config, (configInitEnd beaconConfig (ascii "tincd") (ascii "tincd 1.0.36")).result =
        some config ∧
      ∀ around peer, ¬ NeverNull around config [peer] := by
  refine ⟨_, rfl, fun around peer h => ?_⟩
  exact absurd (known_of_neverNull h) (by decide)

end ChaosVpn.VersionChecks
