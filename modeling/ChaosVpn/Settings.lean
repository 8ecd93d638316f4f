import ChaosVpn.AddrMask

/-! The settings that the modelled functions read and never write. A setting that
config_alloc leaves NULL is `none`; config_init has made sure of the first three. What
a run changes is in the state of FetchAndApply. -/

namespace ChaosVpn.Settings
open CStrings StringBuffer AddrMask

inductive SettingsListEntry
  | string (s : Bytes)
  | integer (i : Int)

structure Config where
  peerid : Bytes
  networkname : Bytes
  basePath : Bytes
  vpnIp : Option Bytes := none
  vpnIp6 : Option Bytes := none
  myAddressfamily : Option Bytes := none
  myIp : Option Bytes := none
  tincdInterface : Option Bytes := none
  tincdDevice : Option Bytes := none
  tincdGraphdumpfile : Option Bytes := none
  tincdRawConfig : Option Bytes := none
  tincdVersion : Option Bytes := none
  tincctlBin : Option Bytes := none
  routeadd : Option Bytes := none
  routeadd6 : Option Bytes := none
  routedel : Option Bytes := none
  routedel6 : Option Bytes := none
  postup : Option Bytes := none
  ifconfig : Option Bytes := none
  ifconfig6 : Option Bytes := none
  tincdPidfile : Option Bytes := none
  masterdataSignkey : Option Bytes := none
  tmpconffile : Option Bytes := none
  privkey : StructString := stringLazyinit
  ed25519publickey : StructString := stringLazyinit
  exclude : Option (List SettingsListEntry) := none
  useDynamicRoutes : Bool := false
  connectOnlyToPrimaryNodes : Bool := true
  localdiscovery : Bool := true
  mergeroutesSupernet : List AddrInfo := []
  ignoreSubnets : List AddrInfo := []
  whitelistSubnets : List AddrInfo := []

end ChaosVpn.Settings
