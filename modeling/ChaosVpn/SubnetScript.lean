import ChaosVpn.RouteScript

/-! tinc_write_subnetupdown in tinc.c: the scripts subnet-up and subnet-down that tincd
runs for every subnet of a node. With static routes there is only a link to a local
script. -/

namespace ChaosVpn.SubnetScript
open CStrings Libc Settings RouteScript

/-- The format of the logger in front of, between and behind its two arguments. -/
def loggerHead (up : Bool) : Bytes :=
  let name := ascii (if up then "subnet-up" else "subnet-down")
  ascii "logger -t \"tinc.$NETNAME." ++ name ++ ascii "\" -p daemon.debug \"" ++ name ++
    ascii " from $NODE for "

def loggerMiddle : Bytes := ascii " $SUBNET ($REMOTEADDRESS:$REMOTEPORT)"

def loggerTail : Bytes := ascii "\" 2>/dev/null\n"

def loggerFormat (up : Bool) : Bytes :=
  loggerHead up ++ ascii "%s" ++ loggerMiddle ++ ascii "%s" ++ loggerTail

def logger (libc : CLibrary) (up : Bool) (kind suffix : Bytes) : Option Bytes :=
  formatted libc (loggerFormat up) none [.str kind, .str suffix]

def localScript : Bytes := ascii "[ -x \"$0.local\" ] && \"$0.local\" \"$@\"\n"

def ownNodeLine (libc : CLibrary) (config : Config) : Option Bytes :=
  concatF libc (ascii "[ \"$NODE\" = \x27%s\x27 ] && exit 0\n\n") config.peerid

/-- The loop over the list, and whether it has written an exclude. -/
def excludeLoop (libc : CLibrary) : Bool → List SettingsListEntry → Option Bytes × Bool
  | haveexcludes, [] => (some [], haveexcludes)
  | haveexcludes, .integer _ :: list => excludeLoop libc haveexcludes list
  | haveexcludes, .string s :: list =>
    let later := excludeLoop libc true list
    (concatAll [if haveexcludes then some [] else some (ascii "\n" ++ ascii "excluded=\"\"\n"),
      concatF libc (ascii "[ \"$NODE\" = \x27%s\x27 ] && excluded=1\n") s, later.1], later.2)

def excludeBlock (libc : CLibrary) (config : Config) (up : Bool) : Option Bytes :=
  match config.exclude with
  | none => some []
  | some list =>
    let loop := excludeLoop libc false list
    concatAll [loop.1,
      if loop.2 then
        concatAll [some (ascii "if [ -n \"$excluded\" ] ; then\n"), some (ascii "\t"),
          logger libc up (ascii "ignore") (ascii " (excluded)"),
          some (ascii "\t" ++ localScript), some (ascii "\texit 0\n"), some (ascii "fi\n\n")]
      else some []]

/-- The pattern of the subnets of a family, and their name in the log. -/
def subnetPattern : Family → Bytes
  | .inet =>
    ascii "^((25[0-5]|(2[0-4]|1\x7b0,1\x7d[0-9])\x7b0,1\x7d[0-9])\\.)\x7b3,3\x7d" ++
      ascii "(25[0-5]|(2[0-4]|1\x7b0,1\x7d[0-9])\x7b0,1\x7d[0-9])(/([0-9]|[12][0-9]|3[012]))?$"
  | .inet6 =>
    ascii "^(([0-9a-fA-F]\x7b1,4\x7d:)\x7b7,7\x7d[0-9a-fA-F]\x7b1,4\x7d|" ++
      ascii "([0-9a-fA-F]\x7b1,4\x7d:)\x7b1,7\x7d:|" ++
      ascii "([0-9a-fA-F]\x7b1,4\x7d:)\x7b1,6\x7d:[0-9a-fA-F]\x7b1,4\x7d|" ++
      ascii "([0-9a-fA-F]\x7b1,4\x7d:)\x7b1,5\x7d(:[0-9a-fA-F]\x7b1,4\x7d)\x7b1,2\x7d|" ++
      ascii "([0-9a-fA-F]\x7b1,4\x7d:)\x7b1,4\x7d(:[0-9a-fA-F]\x7b1,4\x7d)\x7b1,3\x7d|" ++
      ascii "([0-9a-fA-F]\x7b1,4\x7d:)\x7b1,3\x7d(:[0-9a-fA-F]\x7b1,4\x7d)\x7b1,4\x7d|" ++
      ascii "([0-9a-fA-F]\x7b1,4\x7d:)\x7b1,2\x7d(:[0-9a-fA-F]\x7b1,4\x7d)\x7b1,5\x7d|" ++
      ascii "[0-9a-fA-F]\x7b1,4\x7d:((:[0-9a-fA-F]\x7b1,4\x7d)\x7b1,6\x7d)|" ++
      ascii ":((:[0-9a-fA-F]\x7b1,4\x7d)\x7b1,7\x7d|:))/([0-9]\x7b1,2\x7d|1[01][0-9]|12[0-8])$"

def familyName : Family → Bytes
  | .inet => ascii "ipv4"
  | .inet6 => ascii "ipv6"

def subnetBlock (libc : CLibrary) (config : Config) (up : Bool) (family : Family) :
    Option Bytes :=
  concatAll
    [some (ascii "if echo \"$SUBNET\" | grep -q -E \x27" ++ subnetPattern family ++
        ascii "\x27 ; then\n"),
     some (ascii "\t"),
     logger libc up (familyName family)
       (if hasRoutes config up family then [] else ascii " (disabled)"),
     if hasRoutes config up family then
       concatAll [some (ascii "\t"),
         concatF libc ((routecmd config up family).getD []) (ascii "$SUBNET"), some (ascii "\n")]
     else some [],
     some (ascii "\t" ++ localScript), some (ascii "\texit 0\n"), some (ascii "fi\n")]

/-- What follows the excludes. -/
def routeBlocks (libc : CLibrary) (config : Config) (up : Bool) : Option Bytes :=
  concatAll [subnetBlock libc config up .inet, subnetBlock libc config up .inet6,
    logger libc up (ascii "unknown") (ascii " (ignored)"), some localScript,
    some (ascii "exit 0\n\n")]

/-- The file is written anew, or it becomes a link to the file with `.local` behind its
name if that one can be executed. -/
inductive SubnetFile
  | generated (file : Written)
  | linked (path : Bytes)

def tincWriteSubnetupdown (libc : CLibrary) (config : Config) (up : Bool) : Option SubnetFile :=
  let path := config.basePath ++ ascii (if up then "/subnet-up" else "/subnet-down")
  if ¬ config.useDynamicRoutes then some (.linked path)
  else
    (concatAll
      [some (ascii "#!/bin/sh\n"),
       some (comment ++ ascii "this is an autogenerated file - do not edit!\n\n"),
       ownNodeLine libc config,
       excludeBlock libc config up,
       routeBlocks libc config up]).map fun contents =>
        .generated ⟨path, contents, 0o700⟩

end ChaosVpn.SubnetScript
