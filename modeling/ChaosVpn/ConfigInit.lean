import ChaosVpn.ConfigGrammar
import ChaosVpn.KeyFiles
import ChaosVpn.VersionChecks

/-! config_alloc and config_init: from the configuration file to the configuration that the rest
of the client works with, as on Linux. What config_init finds outside of the program is in its
surroundings. -/

namespace ChaosVpn.ConfigInit
open CStrings StringBuffer Libc AddrMask Settings ConfigLexer ConfigGrammar

/-! Reading the file -/

/-- yyparse() with a pass for each byte of the file. -/
def yyparse (v : Values) (file : Bytes) : Outcome :=
  (Loops.loop advance (file.length + 1) (opened v file)).getD (.rejected v)

theorem advance_shorter {m m' : Reading} (h : advance m = .inl m') :
    m'.text.length < m.text.length := by
  obtain ⟨s, p, v, text⟩ := m
  cases text with
  | nil => cases p <;> cases h
  | cons c text =>
    have hshorter := scan_shorter s (List.cons_ne_nil c text)
    rcases hscan : scan s (c :: text) with ⟨kind, s', rest⟩
    rw [hscan] at hshorter
    cases kind with
    | next =>
      rw [advance_next (List.cons_ne_nil c text) hscan] at h
      exact Sum.inl.inj h ▸ hshorter
    | exit =>
      rw [advance_exit (List.cons_ne_nil c text) hscan] at h
      cases h
    | returns token =>
      cases hshift : shift v p token with
      | none =>
        rw [advance_error (List.cons_ne_nil c text) hscan hshift] at h
        cases h
      | some shifted =>
        rw [advance_token (List.cons_ne_nil c text) hscan hshift] at h
        exact Sum.inl.inj h ▸ hshorter

theorem loop_ends (m : Reading) {n : Nat} (h : m.text.length < n) :
    ∃ outcome, Loops.loop advance n m = some outcome := by
  induction n generalizing m with
  | zero => omega
  | succ n ih =>
    cases hadvance : advance m with
    | inr outcome => exact ⟨outcome, by simp [Loops.loop, hadvance]⟩
    | inl m' =>
      have hshorter := advance_shorter hadvance
      obtain ⟨outcome, hloop⟩ := ih m' (by omega)
      exact ⟨outcome, by simp [Loops.loop, hadvance, hloop]⟩

theorem yyparse_iff {v : Values} {file : Bytes} {outcome : Outcome} :
    Yyparse v file outcome ↔ yyparse v file = outcome := by
  obtain ⟨result, hloop⟩ : ∃ result,
      Loops.loop advance (file.length + 1) (opened v file) = some result :=
    loop_ends (opened v file) (Nat.lt_succ_self file.length)
  have hreturns : Yyparse v file result := ⟨_, hloop⟩
  have heq : yyparse v file = result := by
    rw [yyparse, hloop, Option.getD_some]
  rw [heq]
  exact ⟨fun h => hreturns.unique h, fun h => h ▸ hreturns⟩

/-- The settings before the file is read. -/
def configAlloc : Values where
  strings := fun
    | .tincdBin => some (ascii "tincd")
    | .routemetric => some (ascii "0")
    | .masterUrl => some (ascii "https://www.vpn.hamburg.ccc.de/tinc-chaosvpn.txt")
    | _ => none
  ints := fun
    | .tincdDebuglevel => 3
    | .tincdRestartDelay => 20
    | .updateInterval => 0
  bools := fun
    | .connectOnlyToPrimaryNodes | .localdiscovery => true
    | .useDynamicRoutes | .runIfdown => false
  lists := fun _ => none

/-! The checks -/

structure Surroundings where
  configfile : Option Bytes
  oneshot : Bool
  /-- stat() finds it, and the owner may execute it. -/
  executable : Bytes → Bool
  getpwnam : Bytes → Bool
  /-- stat() finds it, or fs_mkdir_p makes a directory of this name. -/
  base : Bytes → Bool
  fopen : Bytes → Option KeyFiles.KeyFile
  /-- What `tincd --version` prints. -/
  versionOutput : Bytes → Bytes

/-- Why the client does not start. -/
inductive Refusal
  | configfile
  | parseError
  | noUpdateInterval
  | shortUpdateInterval
  | missing (label : Bytes)
  | tincdBin
  | myIp
  | myAddressfamily
  | tincdUser
  | vpnIp
  | exampleVpnIp
  | vpnIp6
  | notCompatible (label : Bytes)
  | base
  | privkey
  | assertion
  deriving DecidableEq

def require (condition : Bool) (refusal : Refusal) : Except Refusal Unit :=
  if condition then .ok () else .error refusal

def orRefuse {α : Type} (result : Option α) (refusal : Refusal) : Except Refusal α :=
  result.elim (.error refusal) .ok

def parsed (v : Values) (file : Bytes) : Except Refusal Values :=
  match yyparse v file with
  | .rejected _ => .error .parseError
  | .accepted v => .ok v

def checkIf (condition : Bool) (check : Except Refusal Unit) : Except Refusal Unit :=
  if condition then check else .ok ()

/-- The macro reqparam. -/
def reqparam (v : Values) (field : StringField) (label : Bytes) : Except Refusal Unit :=
  require (strIsNonempty (v.strings field)) (.missing label)

/-- An unsigned int that is stored through a pointer to int. -/
def updateInterval (v : Values) : Nat := (v.ints .updateInterval % 0x100000000).toNat

def addrmaskVerifyIp (libc : CLibrary) (addressmask : Bytes) (family : Option Family) : Bool :=
  !addressmask.isEmpty &&
    match addrmaskParse libc addressmask with
    | none => false
    | some addr =>
      addr.maskShift = addrBitCount addr.addrFamily && (family = none || family = some addr.addrFamily)

/-- An address that is not set is no error. -/
def verifyOptional (libc : CLibrary) (address : Option Bytes) (family : Option Family) : Bool :=
  strIsEmpty address || addrmaskVerifyIp libc (address.getD []) family

def checkInterval (around : Surroundings) (v : Values) : Except Refusal Unit := do
  require (updateInterval v ≠ 0 || around.oneshot) .noUpdateInterval
  require (60 ≤ updateInterval v || around.oneshot) .shortUpdateInterval

def checkRequired (v : Values) : Except Refusal Unit := do
  reqparam v .peerid (ascii "$my_peerid")
  reqparam v .networkname (ascii "$networkname")
  reqparam v .vpnIp (ascii "$my_vpn_ip")
  reqparam v .routeadd (ascii "$routeadd")
  reqparam v .ifconfig (ascii "$ifconfig")
  reqparam v .basePath (ascii "$base")
  reqparam v .tincdUser (ascii "$tincd_user")
  reqparam v .tincdBin (ascii "$tincd_bin")

/-- An address to listen on all interfaces is none. -/
def myIp (v : Values) : Option Bytes :=
  (v.strings .myIp).filter fun ip =>
    ip ≠ [] ∧ ip ≠ ascii "0.0.0.0" ∧ ip ≠ ascii "127.0.0.1" ∧ ip ≠ ascii "::"

def families : List Bytes := [ascii "any", ascii "ipv4", ascii "ipv6"]

def myAddressfamily (v : Values) : Bytes :=
  if strIsEmpty (v.strings .myAddressfamily) then ascii "ipv4"
  else (v.strings .myAddressfamily).getD []

def checkAddresses (libc : CLibrary) (around : Surroundings) (v : Values) : Except Refusal Unit := do
  let tincdBin := (v.strings .tincdBin).getD []
  require (slash ∉ tincdBin || around.executable tincdBin) .tincdBin
  require (verifyOptional libc (myIp v) none) .myIp
  require (myAddressfamily v ∈ families) .myAddressfamily
  require (around.getpwnam ((v.strings .tincdUser).getD [])) .tincdUser
  require (verifyOptional libc (v.strings .vpnIp) (some .inet)) .vpnIp
  require (v.strings .vpnIp ≠ some (ascii "172.31.0.255")) .exampleVpnIp
  require (verifyOptional libc (v.strings .vpnIp6) (some .inet6)) .vpnIp6

def checkCommands (v : Values) : Except Refusal Unit := do
  checkIf (v.bools .useDynamicRoutes) (reqparam v .routedel (ascii "$routedel"))
  checkIf (strIsNonempty (v.strings .vpnIp6)) do
    reqparam v .ifconfig6 (ascii "$ifconfig6")
    reqparam v .routeadd6 (ascii "$routeadd6")
    checkIf (v.bools .useDynamicRoutes) (reqparam v .routedel6 (ascii "$routedel6"))

/-- parse_and_free_raw_subnetlist: what is no subnet is left out. -/
def parseRawSubnetlist (libc : CLibrary) (raw : Option (List SettingsListEntry)) : List AddrInfo :=
  (raw.getD []).filterMap fun
    | .string s => addrmaskParse libc s
    | .integer _ => none

/-- Lists of subnets are for static routes. -/
def subnetlist (libc : CLibrary) (v : Values) (field : ListField) (label : Bytes) :
    Except Refusal (List AddrInfo) := do
  let list := parseRawSubnetlist libc (v.lists field)
  require (list = [] || !v.bools .useDynamicRoutes) (.notCompatible label)
  return list

/-- A key is read into an empty string. -/
def readKey (file : KeyFiles.KeyFile) : StructString :=
  file.chunks.foldl stringConcatb (stringFree stringLazyinit)

def privateKey (around : Surroundings) (base : Bytes) : Except Refusal StructString :=
  match around.fopen (KeyFiles.rsaKeyName base) with
  | none => .error .privkey
  | some file => if file.ferror then .error .privkey else .ok (readKey file)

def publicKey (around : Surroundings) (base : Bytes) : StructString :=
  match around.fopen (KeyFiles.ed25519KeyName base) with
  | none => stringFree stringLazyinit
  | some file => readKey file

/-- The configuration before the version of tincd is known. -/
def settled (v : Values) (mergeroutesSupernet ignoreSubnets whitelistSubnets : List AddrInfo)
    (privkey ed25519publickey : StructString) : Config where
  peerid := (v.strings .peerid).getD []
  networkname := (v.strings .networkname).getD []
  basePath := (v.strings .basePath).getD []
  vpnIp := v.strings .vpnIp
  vpnIp6 := v.strings .vpnIp6
  myAddressfamily := some (myAddressfamily v)
  myIp := myIp v
  tincdInterface :=
    if strIsEmpty (v.strings .tincdInterface) then
      some (((v.strings .networkname).getD [] ++ ascii "_vpn").take 1023)
    else v.strings .tincdInterface
  tincdDevice :=
    if strIsEmpty (v.strings .tincdDevice) then some (ascii "/dev/net/tun")
    else v.strings .tincdDevice
  tincdGraphdumpfile := v.strings .tincdGraphdumpfile
  tincdRawConfig := v.strings .tincdRawConfig
  tincctlBin := v.strings .tincctlBin
  routeadd := v.strings .routeadd
  routeadd6 := v.strings .routeadd6
  routedel := v.strings .routedel
  routedel6 := v.strings .routedel6
  postup := v.strings .postup
  ifconfig := v.strings .ifconfig
  ifconfig6 := v.strings .ifconfig6
  tincdPidfile := v.strings .tincdPidfile
  masterdataSignkey := v.strings .masterdataSignkey
  tmpconffile := v.strings .tmpconffile
  privkey := privkey
  ed25519publickey := ed25519publickey
  exclude := v.lists .exclude
  useDynamicRoutes := v.bools .useDynamicRoutes
  connectOnlyToPrimaryNodes := v.bools .connectOnlyToPrimaryNodes
  localdiscovery := v.bools .localdiscovery
  mergeroutesSupernet := mergeroutesSupernet
  ignoreSubnets := ignoreSubnets
  whitelistSubnets := whitelistSubnets

/-- The settings come along for what is not in the configuration. -/
def configInit (libc : CLibrary) (around : Surroundings) : Except Refusal (Values × Config) := do
  let file ← orRefuse around.configfile .configfile
  let v ← parsed configAlloc file
  checkInterval around v
  checkRequired v
  checkAddresses libc around v
  checkCommands v
  let supernet ← subnetlist libc v .mergeroutesSupernetRaw (ascii "@mergeroutes_supernet")
  let ignored ← subnetlist libc v .ignoreSubnetsRaw (ascii "@ignore_subnets")
  let whitelist ← subnetlist libc v .whitelistSubnetsRaw (ascii "@whitelist_subnets")
  let base := (v.strings .basePath).getD []
  require (around.base base) .base
  let privkey ← privateKey around base
  let tincdBin := (v.strings .tincdBin).getD []
  let config ← orRefuse
    (VersionChecks.configInitEnd
      (settled v supernet ignored whitelist privkey (publicKey around base))
      tincdBin (around.versionOutput tincdBin)).result .assertion
  return (v, config)

/-! What is accepted -/

variable {libc : CLibrary} {around : Surroundings} {v : Values} {config : Config}
  {condition : Bool} {refusal : Refusal}

theorem bind_ok {α β : Type} {x : Except Refusal α} {f : α → Except Refusal β} {b : β} :
    (x >>= f) = .ok b ↔ ∃ a, x = .ok a ∧ f a = .ok b := by
  cases x with
  | error refusal => simp [bind, Except.bind]
  | ok a => simp [bind, Except.bind]

theorem require_ok {u : Unit} : require condition refusal = .ok u ↔ condition = true := by
  cases condition <;> simp [require]

theorem orRefuse_ok {α : Type} {result : Option α} {a : α} :
    orRefuse result refusal = .ok a ↔ result = some a := by
  cases result <;> simp [orRefuse]

theorem parsed_ok {file : Bytes} {v v' : Values} :
    parsed v file = .ok v' ↔ Yyparse v file (.accepted v') := by
  rw [yyparse_iff, parsed]
  cases yyparse v file <;> simp

theorem checkIf_ok {check : Except Refusal Unit} {u : Unit} :
    checkIf condition check = .ok u ↔ (condition = true → check = .ok u) := by
  cases condition <;> simp [checkIf]

def requiredFields : List StringField :=
  [.peerid, .networkname, .vpnIp, .routeadd, .ifconfig, .basePath, .tincdUser, .tincdBin]

def subnetFields : List ListField :=
  [.mergeroutesSupernetRaw, .ignoreSubnetsRaw, .whitelistSubnetsRaw]

/-- An address of the node itself that can be written in full. -/
def Addresses (libc : CLibrary) (address : Option Bytes) (family : Option Family) : Prop :=
  ∀ ip, address = some ip → ip ≠ [] → addrmaskVerifyIp libc ip family = true

/-- Settings that the rest of the client can work with. -/
structure Acceptable (libc : CLibrary) (around : Surroundings) (v : Values) : Prop where
  interval : 60 ≤ updateInterval v ∨ around.oneshot = true
  required : ∀ field ∈ requiredFields, strIsNonempty (v.strings field) = true
  tincdBin : ∀ bin, v.strings .tincdBin = some bin → slash ∈ bin → around.executable bin = true
  myIp : Addresses libc (myIp v) none
  addressfamily : myAddressfamily v ∈ families
  tincdUser : around.getpwnam ((v.strings .tincdUser).getD []) = true
  vpnIp : Addresses libc (v.strings .vpnIp) (some .inet)
  notExample : v.strings .vpnIp ≠ some (ascii "172.31.0.255")
  vpnIp6 : Addresses libc (v.strings .vpnIp6) (some .inet6)
  routedel : v.bools .useDynamicRoutes = true → strIsNonempty (v.strings .routedel) = true
  commands6 : strIsNonempty (v.strings .vpnIp6) = true →
    strIsNonempty (v.strings .ifconfig6) = true ∧ strIsNonempty (v.strings .routeadd6) = true ∧
      (v.bools .useDynamicRoutes = true → strIsNonempty (v.strings .routedel6) = true)
  subnetlists : v.bools .useDynamicRoutes = true → ∀ field ∈ subnetFields,
    parseRawSubnetlist libc (v.lists field) = []
  base : around.base ((v.strings .basePath).getD []) = true

theorem verifyOptional_iff {address : Option Bytes} {family : Option Family} :
    verifyOptional libc address family = true ↔ Addresses libc address family := by
  unfold verifyOptional Addresses
  cases address with
  | none => simp [strIsEmpty]
  | some ip => cases ip <;> simp [strIsEmpty]

theorem checkInterval_ok {u : Unit} : checkInterval around v = .ok u ↔
    60 ≤ updateInterval v ∨ around.oneshot = true := by
  simp only [checkInterval, bind_ok, require_ok, exists_const, Bool.or_eq_true, decide_eq_true_eq]
  cases around.oneshot
  · simp only [Bool.false_eq_true, or_false]
    omega
  · simp

theorem checkRequired_ok {u : Unit} : checkRequired v = .ok u ↔
    ∀ field ∈ requiredFields, strIsNonempty (v.strings field) = true := by
  simp only [checkRequired, reqparam, bind_ok, require_ok, exists_const, requiredFields,
    List.forall_mem_cons, List.not_mem_nil, false_imp_iff, implies_true, and_true]

theorem checkCommands_ok {u : Unit} : checkCommands v = .ok u ↔
    (v.bools .useDynamicRoutes = true → strIsNonempty (v.strings .routedel) = true) ∧
      (strIsNonempty (v.strings .vpnIp6) = true →
        strIsNonempty (v.strings .ifconfig6) = true ∧ strIsNonempty (v.strings .routeadd6) = true ∧
          (v.bools .useDynamicRoutes = true → strIsNonempty (v.strings .routedel6) = true)) := by
  simp only [checkCommands, reqparam, bind_ok, require_ok, checkIf_ok, exists_const]

theorem checkAddresses_ok {u : Unit} : checkAddresses libc around v = .ok u ↔
    (∀ bin, v.strings .tincdBin = some bin → slash ∈ bin → around.executable bin = true) ∧
      Addresses libc (myIp v) none ∧ myAddressfamily v ∈ families ∧
      around.getpwnam ((v.strings .tincdUser).getD []) = true ∧
      Addresses libc (v.strings .vpnIp) (some .inet) ∧
      v.strings .vpnIp ≠ some (ascii "172.31.0.255") ∧
      Addresses libc (v.strings .vpnIp6) (some .inet6) := by
  have hbin : (slash ∉ (v.strings .tincdBin).getD [] ||
      around.executable ((v.strings .tincdBin).getD [])) = true ↔
      ∀ bin, v.strings .tincdBin = some bin → slash ∈ bin → around.executable bin = true := by
    cases v.strings .tincdBin with
    | none => simp
    | some bin =>
      simp only [Option.getD_some, Option.some.injEq, forall_eq', Bool.or_eq_true,
        decide_eq_true_eq]
      exact imp_iff_not_or.symm
  simp only [checkAddresses, bind_ok, require_ok, exists_const, verifyOptional_iff, hbin,
    decide_eq_true_eq]

theorem subnetlist_ok {field : ListField} {label : Bytes} {list : List AddrInfo} :
    subnetlist libc v field label = .ok list ↔
      (v.bools .useDynamicRoutes = true → parseRawSubnetlist libc (v.lists field) = []) ∧
        list = parseRawSubnetlist libc (v.lists field) := by
  simp only [subnetlist, bind_ok, require_ok, exists_const, pure, Except.pure, Except.ok.injEq,
    Bool.or_eq_true, decide_eq_true_eq, Bool.not_eq_true', @eq_comm _ list]
  cases v.bools .useDynamicRoutes <;> simp

/-- What config_init adds to the configuration once it knows what tincd prints. -/
def concluded (config : Config) (tincdBin tincdOutput : Bytes) : Config :=
  let config := { config with tincdVersion := VersionChecks.tincGetVersion tincdOutput }
  { config with
    tincctlBin :=
      if TincConf.versionAbove config (ascii "1.1") then
        config.tincctlBin.or (some (VersionChecks.tincctlBeside tincdBin))
      else none
    tincdPidfile := config.tincdPidfile.or
      (some ((ascii "/var/run/tinc." ++ config.networkname ++ ascii ".pid").take 1023))
    tmpconffile := config.tmpconffile.or
      (some ((config.basePath ++ ascii "/data.sav").take 1023)) }

theorem result_configInitEnd (config : Config) (tincdBin tincdOutput : Bytes) :
    (VersionChecks.configInitEnd config tincdBin tincdOutput).result =
      some (concluded config tincdBin tincdOutput) := by
  simp [VersionChecks.configInitEnd, concluded]

/-- The configuration that comes of acceptable settings. -/
def started (libc : CLibrary) (around : Surroundings) (v : Values) (privkey : StructString) :
    Config :=
  let list field := parseRawSubnetlist libc (v.lists field)
  let base := (v.strings .basePath).getD []
  let tincdBin := (v.strings .tincdBin).getD []
  concluded
    (settled v (list .mergeroutesSupernetRaw) (list .ignoreSubnetsRaw) (list .whitelistSubnetsRaw)
      privkey (publicKey around base))
    tincdBin (around.versionOutput tincdBin)

/-- config_init goes on exactly with acceptable settings and a private key. -/
theorem configInit_ok : configInit libc around = .ok (v, config) ↔
    ∃ file privkey, around.configfile = some file ∧ Yyparse configAlloc file (.accepted v) ∧
      Acceptable libc around v ∧
      privateKey around ((v.strings .basePath).getD []) = .ok privkey ∧
      config = started libc around v privkey := by
  simp only [configInit, bind_ok, orRefuse_ok, parsed_ok, checkInterval_ok, checkRequired_ok,
    checkAddresses_ok, checkCommands_ok, subnetlist_ok, require_ok, result_configInitEnd,
    pure, Except.pure, Except.ok.injEq, Prod.mk.injEq]
  constructor
  · rintro ⟨file, hfile, v', hparsed, -, hinterval, -, hrequired, -,
      ⟨hbin, hmyIp, hfamily, huser, hvpnIp, hexample, hvpnIp6⟩, -, ⟨hroutedel, hcommands6⟩,
      _, ⟨hsupernet, rfl⟩, _, ⟨hignore, rfl⟩, _, ⟨hwhitelist, rfl⟩, -, hbase, privkey, hprivkey,
      _, hconfig, rfl, rfl⟩
    refine ⟨file, privkey, hfile, hparsed, ?_, hprivkey, (Option.some.inj hconfig).symm⟩
    have hlists : v'.bools .useDynamicRoutes = true → ∀ field ∈ subnetFields,
        parseRawSubnetlist libc (v'.lists field) = [] := by
      intro hdynamic
      simp only [subnetFields, List.forall_mem_cons, List.not_mem_nil, false_imp_iff,
        implies_true, and_true]
      exact ⟨hsupernet hdynamic, hignore hdynamic, hwhitelist hdynamic⟩
    exact ⟨hinterval, hrequired, hbin, hmyIp, hfamily, huser, hvpnIp, hexample, hvpnIp6,
      hroutedel, hcommands6, hlists, hbase⟩
  · rintro ⟨file, privkey, hfile, hparsed, haccepts, hprivkey, rfl⟩
    have hlist : ∀ field ∈ subnetFields, v.bools .useDynamicRoutes = true →
        parseRawSubnetlist libc (v.lists field) = [] := fun field hfield hdynamic =>
      haccepts.subnetlists hdynamic field hfield
    exact ⟨file, hfile, v, hparsed, (), haccepts.interval, (), haccepts.required, (),
      ⟨haccepts.tincdBin, haccepts.myIp, haccepts.addressfamily, haccepts.tincdUser,
        haccepts.vpnIp, haccepts.notExample, haccepts.vpnIp6⟩,
      (), ⟨haccepts.routedel, haccepts.commands6⟩,
      _, ⟨hlist _ (by simp [subnetFields]), rfl⟩, _, ⟨hlist _ (by simp [subnetFields]), rfl⟩,
      _, ⟨hlist _ (by simp [subnetFields]), rfl⟩, (), haccepts.base, privkey, hprivkey,
      _, rfl, rfl, rfl⟩

end ChaosVpn.ConfigInit
