import ChaosVpn.CStrings
import ChaosVpn.Library.LongestMatch
import ChaosVpn.Library.TextLines
import Mathlib.Data.List.Nodup

/-! The scanner of the configuration file, from cvconf.l. The start conditions are inclusive:
a rule without one is active in all of them. -/

namespace ChaosVpn.ConfigLexer
open CStrings LongestMatch

/-! The settings, named as in struct config -/

inductive StringField
  | peerid | vpnIp | vpnIp6 | password | myIp | myAddressfamily | networkname | tincdBin
  | tincctlBin | routeadd | routeadd6 | routedel | routedel6 | routemetric | postup | ifconfig
  | ifconfig6 | masterUrl | masterdataSignkey | basePath | tincdPidfile | vpnNetmask | tmpconffile
  | tincdGraphdumpfile | tincdInterface | tincdDevice | tincdUser | tincdRawConfig
  deriving DecidableEq

inductive IntField
  | tincdDebuglevel | tincdRestartDelay | updateInterval
  deriving DecidableEq

inductive BoolField
  | useDynamicRoutes | connectOnlyToPrimaryNodes | runIfdown | localdiscovery
  deriving DecidableEq

inductive ListField
  | exclude | mergeroutesSupernetRaw | ignoreSubnetsRaw | whitelistSubnetsRaw
  deriving DecidableEq

/-- KEYWORD_S, KEYWORD_I, KEYWORD_B and KEYWORD_L with what they point to. No rule of the
scanner returns a KEYWORD_F. -/
inductive Keyword
  | string (field : StringField)
  | int (field : IntField)
  | bool (field : BoolField)
  | list (field : ListField)
  deriving DecidableEq

inductive Token
  | keyword (keyword : Keyword)
  | string (sval : Bytes)
  | intval (ival : Int)
  | boolval (bval : Bool)
  | yesnoval (bval : Bool)
  | floatval
  | assignment
  | separator
  | stringmarker
  | listopen
  | listsep
  | listclose
  deriving DecidableEq

inductive StartCondition
  | initial
  | pv
  | ss
  | ll
  deriving DecidableEq

structure Scanner where
  start : StartCondition
  stringcaller : StartCondition
  deriving DecidableEq

def keywords : List (Bytes × Keyword) :=
  [(ascii "$my_peerid", .string .peerid), (ascii "$my_vpn_ip", .string .vpnIp),
    (ascii "$my_vpn_ip6", .string .vpnIp6), (ascii "$my_password", .string .password),
    (ascii "$my_ip", .string .myIp), (ascii "$my_addressfamily", .string .myAddressfamily),
    (ascii "$networkname", .string .networkname), (ascii "$tincd_bin", .string .tincdBin),
    (ascii "$tincctl_bin", .string .tincctlBin), (ascii "$routeadd", .string .routeadd),
    (ascii "$routeadd6", .string .routeadd6), (ascii "$routedel", .string .routedel),
    (ascii "$routedel6", .string .routedel6), (ascii "$routemetric", .string .routemetric),
    (ascii "$postup", .string .postup), (ascii "$ifconfig", .string .ifconfig),
    (ascii "$ifconfig6", .string .ifconfig6), (ascii "$master_url", .string .masterUrl),
    (ascii "$masterdata_signkey", .string .masterdataSignkey), (ascii "$base", .string .basePath),
    (ascii "$pidfile", .string .tincdPidfile), (ascii "$tincd_debuglevel", .int .tincdDebuglevel),
    (ascii "$my_vpn_netmask", .string .vpnNetmask), (ascii "$tmpconffile", .string .tmpconffile),
    (ascii "$tincd_restart_delay", .int .tincdRestartDelay),
    (ascii "$tincd_graphdumpfile", .string .tincdGraphdumpfile),
    (ascii "$tincd_interface", .string .tincdInterface),
    (ascii "$tincd_device", .string .tincdDevice), (ascii "$tincd_user", .string .tincdUser),
    (ascii "$tincd_raw_config", .string .tincdRawConfig),
    (ascii "$update_interval", .int .updateInterval),
    (ascii "$use_dynamic_routes", .bool .useDynamicRoutes),
    (ascii "$connect_only_to_primary_nodes", .bool .connectOnlyToPrimaryNodes),
    (ascii "$run_ifdown", .bool .runIfdown), (ascii "$localdiscovery", .bool .localdiscovery),
    (ascii "@exclude", .list .exclude),
    (ascii "@mergeroutes_supernet", .list .mergeroutesSupernetRaw),
    (ascii "@ignore_subnets", .list .ignoreSubnetsRaw),
    (ascii "@whitelist_subnets", .list .whitelistSubnetsRaw)]

inductive Rule
  | keyword (word : Bytes) (keyword : Keyword)
  | unknownVariable | yesWord | noWord | trueWord | falseWord | assign | float | int | stringOpen
  | listOpen | stringClose | dollar | text | listBlank | listSep | listString | listFloat | listInt
  | listClose | separator | comment | blank | newline
  deriving DecidableEq

/-- The rules behind the keywords. -/
def otherRules : List Rule :=
  [.unknownVariable, .yesWord, .noWord, .trueWord, .falseWord, .assign, .float, .int, .stringOpen,
    .listOpen, .stringClose, .dollar, .text, .listBlank, .listSep, .listString, .listFloat,
    .listInt, .listClose, .separator, .comment, .blank, .newline]

def rules : List Rule := keywords.map (fun keyword => .keyword keyword.1 keyword.2) ++ otherRules

def tab : UInt8 := 9
def quote : UInt8 := 34
def dollarSign : UInt8 := 36
def leftParen : UInt8 := 40
def rightParen : UInt8 := 41
def comma : UInt8 := 44
def point : UInt8 := 46
def semicolon : UInt8 := 59
def equals : UInt8 := 61
def atSign : UInt8 := 64
def backslash : UInt8 := 92

/-- `[ \t]` -/
def isBlank (c : UInt8) : Bool := c = space || c = tab

/-- `[_a-z]` -/
def isNameLetter (c : UInt8) : Bool := c = 95 || (97 ≤ c && c ≤ 122)

/-- `[^"\\\$]` -/
def isPlain (c : UInt8) : Bool := c ≠ quote && c ≠ backslash && c ≠ dollarSign

def anyCase (word : Bytes) : Pattern UInt8 := word.map fun c => .one fun b => toLower b = c

/-- The start condition that a rule needs. -/
def Rule.start : Rule → Option StartCondition
  | .float | .int | .stringOpen | .listOpen => some .pv
  | .stringClose | .dollar | .text => some .ss
  | .listBlank | .listSep | .listString | .listFloat | .listInt | .listClose => some .ll
  | _ => none

/-- The rule for unknown variables is `\[@$][_a-z]+`: the bracket is escaped, so it is not
a class but the text `[@$]`. -/
def Rule.pattern : Rule → Pattern UInt8
  | .keyword word _ => literal word
  | .unknownVariable => literal (ascii "[@$]") ++ [.one isNameLetter, .many isNameLetter]
  | .yesWord => anyCase (ascii "yes")
  | .noWord => anyCase (ascii "no")
  | .trueWord => anyCase (ascii "true")
  | .falseWord => anyCase (ascii "false")
  | .assign => [.many isBlank, .one (· = equals), .many isBlank]
  | .float | .listFloat => [.many isDigit, .one (· = point), .one isDigit, .many isDigit]
  | .int | .listInt => [.one isDigit, .many isDigit]
  | .stringOpen | .stringClose | .listString => [.one (· = quote)]
  | .listOpen => [.one (· = leftParen)]
  | .dollar => [.one (· = backslash), .one (· = dollarSign)]
  | .text => [.many isPlain]
  | .listBlank => [.many isBlank]
  | .listSep => [.one (· = comma)]
  | .listClose => [.one (· = rightParen)]
  | .separator => [.one (· = semicolon)]
  | .comment => [.one (· = hash), .many (· ≠ lineFeed)]
  | .blank => [.many isBlank]
  | .newline => [.one (· = lineFeed)]

/-- What the action of a rule ends in: a token, nothing, or exit(). -/
inductive Action
  | returns (token : Token)
  | next
  | exit
  deriving DecidableEq

def Rule.action (yytext : Bytes) (s : Scanner) : Rule → Action × Scanner
  | .keyword _ k => (.returns (.keyword k), s)
  | .unknownVariable => (.exit, s)
  | .yesWord => (.returns (.yesnoval true), s)
  | .noWord => (.returns (.yesnoval false), s)
  | .trueWord => (.returns (.boolval true), s)
  | .falseWord => (.returns (.boolval false), s)
  | .assign => (.returns .assignment, { s with start := .pv })
  | .float | .listFloat => (.returns .floatval, s)
  | .int | .listInt => (.returns (.intval (atoi yytext)), s)
  | .stringOpen | .listString => (.returns .stringmarker, ⟨.ss, s.start⟩)
  | .listOpen => (.returns .listopen, { s with start := .ll })
  | .stringClose => (.returns .stringmarker, { s with start := s.stringcaller })
  | .dollar => (.returns (.string [dollarSign]), s)
  | .text => (.returns (.string (cstr yytext)), s)
  | .listBlank => (.next, s)
  | .listSep => (.returns .listsep, s)
  | .listClose => (.returns .listclose, { s with start := .initial })
  | .separator => (.returns .separator, s)
  | .comment | .blank | .newline => (.next, s)

def activeRules (start : StartCondition) : List Rule :=
  rules.filter fun r => r.start = none || r.start = some start

/-- One match: what the action ends in, and the text behind it. The default rule comes last
and echoes one character. -/
def scan (s : Scanner) (text : Bytes) : Action × Scanner × Bytes :=
  match select Rule.pattern (activeRules s.start) text with
  | some (n, r) =>
    ((r.action (text.take n) s).1, (r.action (text.take n) s).2, text.drop n)
  | none => (.next, s, text.tail)

example : scan ⟨.initial, .initial⟩ (ascii "$base2 = 1;") =
    (.returns (.keyword (.string .basePath)), ⟨.initial, .initial⟩, ascii "2 = 1;") := by
  decide

/-! The tables -/

def keywordRules : List Rule := keywords.map fun keyword => .keyword keyword.1 keyword.2

/-- The rules behind the keywords that can match when a character starts the text. -/
def candidates (start : StartCondition) (c : UInt8) : List Rule :=
  otherRules.filter fun r => (r.start = none || r.start = some start) && canStart r.pattern c

/-- Most characters mean the same in all start conditions but the one for strings. -/
theorem candidates_outside {start : StartCondition} {c : UInt8} {rs : List Rule}
    (hss : start ≠ .ss) (hinitial : candidates .initial c = rs) (hpv : candidates .pv c = rs)
    (hll : candidates .ll c = rs) : candidates start c = rs := by
  cases start with
  | ss => exact absurd rfl hss
  | initial => exact hinitial
  | pv => exact hpv
  | ll => exact hll

/-- What holds of 256 bytes is decided by looking at them. -/
theorem forall_byte {P : UInt8 → Prop} (h : ∀ n : Fin 256, P (.ofFin n)) (c : UInt8) : P c :=
  h c.toFin

theorem keywords_nodup : (keywords.map Prod.fst).Nodup := by decide

theorem keywords_head : ∀ keyword ∈ keywords,
    keyword.1.head? = some dollarSign ∨ keyword.1.head? = some atSign := by decide

theorem activeRules_eq (start : StartCondition) :
    activeRules start =
      keywordRules ++ otherRules.filter fun r => r.start = none || r.start = some start := by
  rw [activeRules, rules, List.filter_append, List.filter_eq_self.mpr]
  · rfl
  · intro r hr
    obtain ⟨keyword, -, rfl⟩ := List.mem_map.mp hr
    rfl

theorem keywordRules_start {c : UInt8} (hdollar : c ≠ dollarSign) (hat : c ≠ atSign) :
    ∀ r ∈ keywordRules, canStart r.pattern c = false := by
  intro r hr
  obtain ⟨keyword, hmem, rfl⟩ := List.mem_map.mp hr
  obtain ⟨word, k⟩ := keyword
  cases word with
  | nil => exact absurd (keywords_head _ hmem) (by simp)
  | cons d word =>
    have hd : d = dollarSign ∨ d = atSign := by simpa using keywords_head _ hmem
    refine decide_eq_false ?_
    rintro rfl
    exact hd.elim hdollar hat

theorem select_candidates {c : UInt8} (hdollar : c ≠ dollarSign) (hat : c ≠ atSign)
    (start : StartCondition) (text : Bytes) :
    select Rule.pattern (activeRules start) (c :: text) =
      select Rule.pattern (candidates start c) (c :: text) := by
  have hnone : keywordRules.filter (fun r => canStart r.pattern c) = [] :=
    List.filter_eq_nil_iff.mpr fun r hr => by simp [keywordRules_start hdollar hat r hr]
  rw [select_filter, activeRules_eq, List.filter_append, hnone, List.nil_append, List.filter_filter]
  simp only [candidates, Bool.and_comm]

/-! One match -/

variable {s : Scanner} {before after : List Rule} {r : Rule} {front rest text : Bytes} {c : UInt8}

theorem scan_select (h : select Rule.pattern (activeRules s.start) (front ++ rest) =
    some (front.length, r)) :
    scan s (front ++ rest) = ((r.action front s).1, (r.action front s).2, rest) := by
  simp only [scan, h, List.take_left, List.drop_left]

theorem scan_wins (hrules : activeRules s.start = before ++ r :: after)
    (h : Wins Rule.pattern before r after front rest) :
    scan s (front ++ rest) = ((r.action front s).1, (r.action front s).2, rest) := by
  refine scan_select ?_
  rw [hrules, select_wins h]

/-- The rule for one character is the only one that can begin with it. -/
theorem scan_single (start : StartCondition) (hstart : s.start = start) (hdollar : c ≠ dollarSign)
    (hat : c ≠ atSign) (hcandidates : candidates start c = [r])
    (hpattern : r.pattern = [.one (· = c)]) (text : Bytes) :
    scan s (c :: text) = ((r.action [c] s).1, (r.action [c] s).2, text) := by
  have hlongest : longest r.pattern (c :: text) = some 1 := by
    rw [hpattern]
    simp [longest]
  have hselect : select Rule.pattern (activeRules s.start) ([c] ++ text) =
      some ([c].length, r) := by
    rw [List.singleton_append, select_candidates hdollar hat, hstart, hcandidates]
    simp only [select, hlongest]
    rfl
  exact scan_select hselect

theorem scan_stringOpen (caller : StartCondition) (text : Bytes) :
    scan ⟨.pv, caller⟩ (quote :: text) = (.returns .stringmarker, ⟨.ss, .pv⟩, text) :=
  scan_single .pv rfl (by decide) (by decide) (r := .stringOpen) (by decide) rfl text

theorem scan_stringClose (caller : StartCondition) (text : Bytes) :
    scan ⟨.ss, caller⟩ (quote :: text) = (.returns .stringmarker, ⟨caller, caller⟩, text) :=
  scan_single .ss rfl (by decide) (by decide) (r := .stringClose) (by decide) rfl text

theorem scan_listOpen (caller : StartCondition) (text : Bytes) :
    scan ⟨.pv, caller⟩ (leftParen :: text) = (.returns .listopen, ⟨.ll, caller⟩, text) :=
  scan_single .pv rfl (by decide) (by decide) (r := .listOpen) (by decide) rfl text

theorem scan_listClose (caller : StartCondition) (text : Bytes) :
    scan ⟨.ll, caller⟩ (rightParen :: text) = (.returns .listclose, ⟨.initial, caller⟩, text) :=
  scan_single .ll rfl (by decide) (by decide) (r := .listClose) (by decide) rfl text

theorem scan_separator (hss : s.start ≠ .ss) (text : Bytes) :
    scan s (semicolon :: text) = (.returns .separator, s, text) := by
  have hcandidates : candidates s.start semicolon = [.separator] :=
    candidates_outside hss (by decide) (by decide) (by decide)
  exact scan_single _ rfl (by decide) (by decide) hcandidates rfl text

/-- Matches of rules that can begin with the text's first character only. -/
theorem wins_candidates (start : StartCondition) (hstart : s.start = start)
    (hdollar : c ≠ dollarSign) (hat : c ≠ atSign)
    (hcandidates : candidates start c = before ++ r :: after)
    (h : Wins Rule.pattern before r after (c :: front) rest) :
    scan s (c :: front ++ rest) =
      ((r.action (c :: front) s).1, (r.action (c :: front) s).2, rest) := by
  refine scan_select ?_
  have hselect := select_wins h
  rw [← hcandidates, List.cons_append, ← select_candidates hdollar hat, ← hstart] at hselect
  exact hselect

theorem scan_assign (hstart : s.start = .initial ∨ s.start = .pv)
    (hrest : ∀ c, rest.head? = some c → isBlank c = false ∧ c ≠ equals) :
    scan s (ascii " = " ++ rest) = (.returns .assignment, { s with start := .pv }, rest) := by
  have hcandidates : candidates s.start space = [] ++ .assign :: [.blank] := by
    rcases hstart with h | h
    · rw [h]
      decide
    · rw [h]
      decide
  refine wins_candidates _ (c := space) rfl (by decide) (by decide)
    hcandidates
    ⟨by simp, ?_, by simp, fun other hother hfits => ?_, fun q hq other hother hfits => ?_⟩
  · exact ⟨[space], [equals, space], rfl, by decide, equals, [space], rfl, rfl, [space], [], rfl,
      by decide, rfl⟩
  · refine (prefix_of_kind hother hfits.allowed fun c hc => ?_).length_le
    obtain ⟨hblank, hequals⟩ := hrest c hc
    simp [Rule.pattern, allowed, hblank, hequals]
  · obtain rfl := List.mem_singleton.mp hq
    have hspace : other <+: [space] ++ equals :: (space :: rest) := hother
    have hle := (prefix_of_kind hspace hfits.allowed fun c hc => by
      obtain rfl := Option.some.inj hc
      decide).length_le
    exact Nat.le_trans hle (by decide)

theorem scan_dollar (caller : StartCondition) (text : Bytes) :
    scan ⟨.ss, caller⟩ (backslash :: dollarSign :: text) =
      (.returns (.string [dollarSign]), ⟨.ss, caller⟩, text) := by
  have hcandidates : candidates .ss backslash = [] ++ .dollar :: [] := by decide
  have hwins : Wins Rule.pattern [] .dollar [] [backslash, dollarSign] text := by
    refine ⟨by simp, ⟨backslash, [dollarSign], rfl, rfl, dollarSign, [], rfl, rfl, rfl⟩, by simp,
      ?_, by simp⟩
    rintro other - ⟨c, front, rfl, -, d, rest, rfl, -, rfl⟩
    exact Nat.le_refl 2
  exact wins_candidates .ss rfl (by decide) (by decide) hcandidates hwins

/-! Variable names -/

theorem keyword_unique {word : Bytes} {k k' : Keyword} (h : (word, k) ∈ keywords)
    (h' : (word, k') ∈ keywords) : k = k' :=
  (Prod.mk.inj (List.inj_on_of_nodup_map keywords_nodup h h' rfl)).2

/-- No other rule than those of the keywords begins with the first character of the text. -/
theorem empty_of_candidates {q : Rule} {other : Bytes} (hcandidates : candidates s.start c = [])
    (hq : q ∈ otherRules.filter fun r => r.start = none || r.start = some s.start)
    (hother : other <+: c :: text) (hfits : Matches q.pattern other) : other = [] := by
  cases other with
  | nil => rfl
  | cons d other =>
    obtain ⟨rfl, -⟩ := List.cons_prefix_cons.mp hother
    obtain ⟨hmem, hactive⟩ := List.mem_filter.mp hq
    have hcandidate : q ∈ candidates s.start d :=
      List.mem_filter.mpr ⟨hmem, by rw [hactive, hfits.canStart]; rfl⟩
    simp [hcandidates] at hcandidate

/-- At a sign for variables: the longest keyword, or the default rule without one. -/
theorem scan_sign (hcandidates : candidates s.start c = []) (text : Bytes) :
    ((∀ keyword ∈ keywords, ¬ keyword.1 <+: c :: text) ∧ scan s (c :: text) = (.next, s, text)) ∨
      ∃ keyword ∈ keywords, ∃ rest, c :: text = keyword.1 ++ rest ∧
        (∀ other ∈ keywords, other.1 <+: c :: text → other.1.length ≤ keyword.1.length) ∧
        scan s (c :: text) = (.returns (.keyword keyword.2), s, rest) := by
  have hactive (keyword : Bytes × Keyword) (hmem : keyword ∈ keywords) :
      Rule.keyword keyword.1 keyword.2 ∈ activeRules s.start := by
    rw [activeRules_eq]
    exact List.mem_append_left _ (List.mem_map_of_mem hmem)
  cases hselect : select Rule.pattern (activeRules s.start) (c :: text) with
  | none =>
    refine .inl ⟨fun keyword hmem hbegins => ?_, by simp [scan, hselect]⟩
    have hempty := empty_of_select_none hselect _ (hactive keyword hmem) keyword.1 hbegins
      (matches_literal.mpr rfl)
    simpa [hempty] using keywords_head keyword hmem
  | some best =>
    obtain ⟨n, r⟩ := best
    obtain ⟨before, after, front, rest, hrules, htext, rfl, hwins⟩ := wins_of_select hselect
    have hmem : r ∈ activeRules s.start := by simp [hrules]
    rw [activeRules_eq] at hmem
    rcases List.mem_append.mp hmem with hkeyword | hother
    · obtain ⟨keyword, hk, rfl⟩ := List.mem_map.mp hkeyword
      obtain rfl := matches_literal.mp hwins.fits
      refine .inr ⟨keyword, hk, rest, htext, fun other hother hbegins => ?_, ?_⟩
      · have hfits : Matches (Rule.keyword other.1 other.2).pattern other.1 :=
          matches_literal.mpr rfl
        exact hwins.length_le _ (hrules ▸ hactive other hother) _ (htext ▸ hbegins) hfits
      · rw [htext] at hselect ⊢
        exact scan_select hselect
    · have hbegins : front <+: c :: text := ⟨rest, htext.symm⟩
      exact absurd (empty_of_candidates hcandidates hother hbegins hwins.fits) hwins.nonempty

theorem scan_keyword {keyword : Bytes × Keyword} (hmem : keyword ∈ keywords)
    (hcandidates : ∀ c, keyword.1.head? = some c → candidates s.start c = [])
    (hlongest : ∀ other ∈ keywords, other.1 <+: keyword.1 ++ rest →
      other.1.length ≤ keyword.1.length) :
    scan s (keyword.1 ++ rest) = (.returns (.keyword keyword.2), s, rest) := by
  obtain ⟨word, k⟩ := keyword
  cases word with
  | nil => exact absurd (keywords_head _ hmem) (by simp)
  | cons c word =>
    rcases scan_sign (hcandidates c rfl) (word ++ rest) with ⟨hnone, -⟩ | ⟨⟨word', k'⟩, hmem', back,
      htext, hlongest', hscan⟩
    · exact absurd (List.prefix_append (c :: word) rest) (hnone _ hmem)
    · have hle : word'.length ≤ (c :: word).length := hlongest _ hmem' ⟨back, htext.symm⟩
      have hge : (c :: word).length ≤ word'.length := hlongest' _ hmem (List.prefix_append _ _)
      obtain ⟨rfl, rfl⟩ := List.append_inj htext (Nat.le_antisymm hge hle)
      rw [← keyword_unique hmem' hmem]
      exact hscan

/-! Text between quotes -/

/-- The rules in front of the one for text, as far as they can match plain text. -/
def rivals : List Rule :=
  keywordRules ++ [.unknownVariable, .yesWord, .noWord, .trueWord, .falseWord, .assign]

theorem activeRules_ss : activeRules .ss =
    rivals ++ [.stringClose, .dollar, .text, .separator, .comment, .blank, .newline] := by
  rw [activeRules_eq, rivals, List.append_assoc]
  rfl

/-- What ends a run of plain text. -/
structure Stop (tail : Bytes) : Prop where
  special : ∃ c, tail.head? = some c ∧ isPlain c = false
  noBracket : tail.tail.head? ≠ some 93

theorem plain_allowed : ∀ r ∈ [Rule.yesWord, .noWord, .trueWord, .falseWord, .assign, .text,
    .separator, .blank, .newline], ∀ c, allowed r.pattern c = true → isPlain c = true := by
  intro r hr c
  revert r
  exact forall_byte (P := fun c => ∀ r ∈ [Rule.yesWord, .noWord, .trueWord, .falseWord, .assign,
    .text, .separator, .blank, .newline], allowed r.pattern c = true → isPlain c = true)
    (by decide +kernel) c

theorem keywords_plain : ∀ keyword ∈ keywords,
    keyword.1.head? = some dollarSign ∨ ∀ c ∈ keyword.1, isPlain c = true := by decide

theorem Stop.stops (h : Stop rest) : ∀ c, rest.head? = some c → isPlain c = false := by
  obtain ⟨d, hd, hspecial⟩ := h.special
  intro c hc
  rwa [← Option.some.inj (hd.symm.trans hc)]

theorem unknownVariable_stops {other : Bytes} (hplain : ∀ c ∈ front, isPlain c = true)
    (hne : front ≠ []) (hrest : Stop rest) (hother : other <+: front ++ rest)
    (hfits : Matches (Rule.pattern .unknownVariable) other) : other <+: front := by
  rcases prefix_cases hother with h | ⟨more, -, rfl, hmore⟩
  · exact h
  · have hword : ascii "[@$]" = [91, atSign, dollarSign, 93] := by decide
    obtain ⟨text, htext, -⟩ := matches_literal_append.mp hfits
    rw [hword] at htext
    obtain ⟨back, rfl⟩ := hmore
    rcases front with _ | ⟨x, _ | ⟨y, _ | ⟨z, front⟩⟩⟩
    · exact absurd rfl hne
    · obtain ⟨-, rfl⟩ := List.cons.inj htext
      exact absurd (hrest.stops _ rfl) (by decide)
    · obtain ⟨-, htext⟩ := List.cons.inj htext
      obtain ⟨-, rfl⟩ := List.cons.inj htext
      exact absurd rfl hrest.noBracket
    · obtain ⟨-, htext⟩ := List.cons.inj htext
      obtain ⟨-, htext⟩ := List.cons.inj htext
      obtain ⟨rfl, -⟩ := List.cons.inj htext
      exact absurd (hplain dollarSign (by simp)) (by decide)

/-- The rules for quotes and escapes do not begin with plain text. -/
theorem quoted_head {other : Bytes} (hr : r = .stringClose ∨ r = .dollar)
    (hfits : Matches r.pattern other) : ∃ c, other.head? = some c ∧ isPlain c = false := by
  rcases hr with rfl | rfl
  all_goals
    obtain ⟨c, text, rfl, hc, -⟩ := hfits
    exact ⟨c, rfl, by rw [of_decide_eq_true hc]; decide⟩

/-- Only a comment goes on behind plain text. -/
theorem plain_stops {other : Bytes} (hr : r ∈ activeRules .ss) (hcomment : r ≠ .comment)
    (hplain : ∀ c ∈ front, isPlain c = true) (hne : front ≠ []) (hrest : Stop rest)
    (hother : other <+: front ++ rest) (hfits : Matches r.pattern other) : other <+: front := by
  have hhead : ∀ c, other.head? = some c → isPlain c = true := by
    intro c hc
    obtain ⟨d, front, rfl⟩ := List.exists_cons_of_ne_nil hne
    obtain ⟨more, rfl⟩ := List.head?_eq_some_iff.mp hc
    obtain ⟨rfl, -⟩ := List.cons_prefix_cons.mp hother
    exact hplain c (by simp)
  have hkind (hall : ∀ c ∈ other, isPlain c = true) : other <+: front :=
    prefix_of_kind hother hall hrest.stops
  rw [activeRules_ss, rivals, List.mem_append, List.mem_append] at hr
  rcases hr with (hkeyword | hr) | hr
  · obtain ⟨keyword, hmem, rfl⟩ := List.mem_map.mp hkeyword
    obtain rfl := matches_literal.mp hfits
    rcases keywords_plain keyword hmem with hdollar | hall
    · exact absurd (hhead _ hdollar) (by decide)
    · exact hkind hall
  · rcases List.mem_cons.mp hr with rfl | hr
    · exact unknownVariable_stops hplain hne hrest hother hfits
    · have hlist : r ∈ [Rule.yesWord, .noWord, .trueWord, .falseWord, .assign, .text, .separator,
          .blank, .newline] := List.mem_append_left [Rule.text, .separator, .blank, .newline] hr
      exact hkind fun c hc => plain_allowed r hlist c (hfits.allowed c hc)
  · by_cases hlist : r ∈ [Rule.yesWord, .noWord, .trueWord, .falseWord, .assign, .text, .separator,
        .blank, .newline]
    · exact hkind fun c hc => plain_allowed r hlist c (hfits.allowed c hc)
    · have hquoted : r = .stringClose ∨ r = .dollar := by
        simp only [List.mem_cons, List.not_mem_nil, or_false] at hr hlist
        aesop
      obtain ⟨c, hc, hspecial⟩ := quoted_head hquoted hfits
      simp [hhead c hc] at hspecial

theorem shorter {other : Bytes} (h : other <+: front) (hne : other ≠ front) :
    other.length < front.length :=
  Nat.lt_of_le_of_ne h.length_le fun hlength => hne (h.eq_of_length hlength)

theorem comment_kind {other : Bytes} (hfits : Matches (Rule.pattern .comment) other) :
    ∀ c ∈ other, decide (c ≠ lineFeed) = true := by
  intro c hc
  have hallowed : (decide (c = hash) || (decide (c ≠ lineFeed) || false)) = true :=
    hfits.allowed c hc
  rw [Bool.or_false, Bool.or_eq_true] at hallowed
  rcases hallowed with h | h
  · rw [of_decide_eq_true h]
    decide
  · exact h

/-- A comment goes on to the end of the line. -/
theorem comment_shorter {other : Bytes} (hne : front ≠ [])
    (hline : front.head? = some hash → lineFeed ∈ front) (hother : other <+: front ++ rest)
    (hfits : Matches (Rule.pattern .comment) other) : other.length < front.length := by
  have hkind := comment_kind hfits
  obtain ⟨c, text, rfl, hc, -⟩ := hfits
  obtain rfl := of_decide_eq_true hc
  obtain ⟨d, front', rfl⟩ := List.exists_cons_of_ne_nil hne
  obtain ⟨rfl, -⟩ := List.cons_prefix_cons.mp hother
  obtain ⟨line, back, heq⟩ := List.append_of_mem (hline rfl)
  rw [heq, List.append_assoc] at hother
  have hle := (prefix_of_kind hother hkind fun c hc => by
    obtain rfl := Option.some.inj hc
    decide).length_le
  rw [heq]
  exact Nat.lt_of_le_of_lt hle (by simp)

variable {caller : StartCondition}

theorem scan_text (hplain : ∀ c ∈ front, isPlain c = true) (hne : front ≠ []) (hrest : Stop rest)
    (hrivals : ∀ r ∈ rivals, ¬ Matches r.pattern front)
    (hline : front.head? = some hash → lineFeed ∈ front) :
    scan ⟨.ss, caller⟩ (front ++ rest) =
      (.returns (.string (cstr front)), ⟨.ss, caller⟩, rest) := by
  have hrules : activeRules .ss = (rivals ++ [.stringClose, .dollar]) ++
      .text :: [.separator, .comment, .blank, .newline] := by
    rw [activeRules_ss, List.append_assoc]
    rfl
  have hbegins (q : Rule) (hq : q ∈ activeRules .ss) (hcomment : q ≠ .comment) (other : Bytes)
      (hother : other <+: front ++ rest) (hfits : Matches q.pattern other) : other <+: front :=
    plain_stops hq hcomment hplain hne hrest hother hfits
  refine scan_wins (s := ⟨.ss, caller⟩) hrules
    ⟨hne, matches_many hplain, fun q hq other hother hfits => ?_, fun other hother hfits => ?_,
      fun q hq other hother hfits => ?_⟩
  · have hmem : q ∈ activeRules .ss := by
      rw [hrules]
      exact List.mem_append_left _ hq
    have hcomment : q ≠ .comment := by
      rintro rfl
      exact absurd hq (by decide)
    refine shorter (hbegins q hmem hcomment other hother hfits) ?_
    rintro rfl
    rcases List.mem_append.mp hq with hq | hq
    · exact hrivals q hq hfits
    · obtain ⟨c, hc, hspecial⟩ := quoted_head (by simpa using hq) hfits
      simp [hplain c (List.mem_of_mem_head? hc)] at hspecial
  · exact (hbegins .text (by simp [hrules]) (by simp) other hother hfits).length_le
  · by_cases hcomment : q = .comment
    · subst hcomment
      exact Nat.le_of_lt (comment_shorter hne hline hother hfits)
    · have hmem : q ∈ activeRules .ss := by
        rw [hrules]
        exact List.mem_append_right _ (List.mem_cons_of_mem _ hq)
      exact (hbegins q hmem hcomment other hother hfits).length_le

/-- A rule in front of the one for text wins the tie. -/
theorem scan_rival (hplain : ∀ c ∈ front, isPlain c = true) (hne : front ≠ []) (hrest : Stop rest)
    (hrival : ∃ r ∈ rivals, Matches r.pattern front)
    (hline : front.head? = some hash → lineFeed ∈ front) :
    ∃ r ∈ rivals, Matches r.pattern front ∧ scan ⟨.ss, caller⟩ (front ++ rest) =
      ((r.action front ⟨.ss, caller⟩).1, (r.action front ⟨.ss, caller⟩).2, rest) := by
  classical
  have hfirst : ∃ r ∈ rivals, decide (Matches r.pattern front) = true := by simpa using hrival
  obtain ⟨before, r, after, hsplit, hfits, hbefore⟩ := TextLines.split_first hfirst
  have hrules : activeRules .ss = before ++
      r :: (after ++ [.stringClose, .dollar, .text, .separator, .comment, .blank, .newline]) := by
    rw [activeRules_ss, hsplit, List.append_assoc, List.cons_append]
  have hfront := of_decide_eq_true hfits
  have hlength (q : Rule) (hq : q ∈ activeRules .ss) (other : Bytes)
      (hother : other <+: front ++ rest) (hmatch : Matches q.pattern other) :
      other.length ≤ front.length := by
    by_cases hcomment : q = .comment
    · subst hcomment
      exact Nat.le_of_lt (comment_shorter hne hline hother hmatch)
    · exact (plain_stops hq hcomment hplain hne hrest hother hmatch).length_le
  refine ⟨r, by simp [hsplit], hfront, scan_wins (s := ⟨.ss, caller⟩) hrules
    ⟨hne, hfront, fun q hq other hother hmatch => ?_, ?_, fun q hq => ?_⟩⟩
  · have hmem : q ∈ rivals := by simp [hsplit, hq]
    have hcomment : q ≠ .comment := by
      rintro rfl
      exact absurd hmem (by decide)
    refine shorter (plain_stops (activeRules_ss ▸ List.mem_append_left _ hmem) hcomment hplain hne
      hrest hother hmatch) ?_
    rintro rfl
    exact absurd hmatch (of_decide_eq_false (hbefore q hq))
  · exact hlength r (by simp [hrules])
  · exact hlength q (by rw [hrules]; exact List.mem_append_right _ (List.mem_cons_of_mem _ hq))

/-- A comment takes the rest of the line, with the end of the string. -/
theorem scan_comment (hplain : ∀ c ∈ front, isPlain c = true) (hhash : front.head? = some hash)
    (hline : lineFeed ∉ front) (hrest : Stop rest) :
    scan ⟨.ss, caller⟩ (front ++ rest) =
      (.next, ⟨.ss, caller⟩, rest.dropWhile fun c => decide (c ≠ lineFeed)) := by
  obtain ⟨text, rfl⟩ := List.head?_eq_some_iff.mp hhash
  have hne : hash :: text ≠ [] := List.cons_ne_nil hash text
  obtain ⟨line, back, hsplit, hkind, hback⟩ :=
    TextLines.split_while (fun c => decide (c ≠ lineFeed)) rest
  have hdrop : rest.dropWhile (fun c => decide (c ≠ lineFeed)) = back := by
    rw [hsplit, List.dropWhile_append_of_pos hkind]
    cases back with
    | nil => rfl
    | cons c back =>
      have hfeed : c = lineFeed := by simpa using hback c rfl
      simp [hfeed]
  have hlonger : (hash :: text).length < (hash :: text ++ line).length := by
    obtain ⟨c, hc, hspecial⟩ := hrest.special
    cases line with
    | nil =>
      rw [hsplit, List.nil_append] at hc
      have hfeed : c = lineFeed := by simpa using hback c hc
      rw [hfeed] at hspecial
      exact absurd hspecial (by decide)
    | cons d line => simp
  have hrules : activeRules .ss = (rivals ++ [.stringClose, .dollar, .text, .separator]) ++
      .comment :: [.blank, .newline] := by
    rw [activeRules_ss, List.append_assoc]
    rfl
  have htext : hash :: text ++ rest = (hash :: text ++ line) ++ back := by
    rw [hsplit, List.append_assoc]
  have hlength (q : Rule) (hq : q ∈ activeRules .ss) (hcomment : q ≠ .comment) (other : Bytes)
      (hother : other <+: hash :: text ++ line ++ back) (hfits : Matches q.pattern other) :
      other.length < (hash :: text ++ line).length :=
    Nat.lt_of_le_of_lt
      (plain_stops hq hcomment hplain hne hrest (htext ▸ hother) hfits).length_le hlonger
  rw [hdrop, htext]
  refine scan_wins (s := ⟨.ss, caller⟩) hrules ⟨by simp, ?_, fun q hq => ?_,
    fun other hother hfits => ?_, fun q hq other hother hfits => ?_⟩
  · refine ⟨hash, text ++ line, rfl, rfl, matches_many fun c hc => ?_⟩
    rcases List.mem_append.mp hc with hc | hc
    · rw [decide_eq_true_eq]
      rintro rfl
      exact hline (by simp [hc])
    · exact hkind c hc
  · refine hlength q (by rw [hrules]; exact List.mem_append_left _ hq) ?_
    rintro rfl
    exact absurd hq (by decide)
  · exact (prefix_of_kind hother (comment_kind hfits) hback).length_le
  · refine Nat.le_of_lt (hlength q (by rw [hrules]; exact List.mem_append_right _ (by simp [hq]))
      ?_ other hother hfits)
    rintro rfl
    exact absurd hq (by decide)

/-! The characters of a name where no keyword begins -/

/-- `[_a-z0-9]` -/
def isNameChar (c : UInt8) : Bool := isNameLetter c || isDigit c

def words : List Bytes := [ascii "yes", ascii "no", ascii "true", ascii "false"]

/-- The tokens that stand for values only. -/
def Token.isValue : Token → Bool
  | .intval _ | .boolval _ | .yesnoval _ | .floatval => true
  | _ => false

theorem matches_anyCase {word : Bytes} : Matches (anyCase word) text ↔ text.map toLower = word := by
  induction word generalizing text with
  | nil => simp [anyCase, Matches]
  | cons d word ih =>
    constructor
    · rintro ⟨c, rest, rfl, hc, hrest⟩
      rw [List.map_cons, of_decide_eq_true hc, ih.mp hrest]
    · intro h
      obtain ⟨c, rest, rfl, hc, hrest⟩ := List.map_eq_cons_iff.mp h
      exact ⟨c, rest, rfl, decide_eq_true hc, ih.mpr hrest⟩

theorem name_candidates : ∀ c, isNameChar c = true →
    (∀ r ∈ candidates .initial c, r ∈ [Rule.yesWord, .noWord, .trueWord, .falseWord]) ∧
      ∀ r ∈ candidates .pv c, r ∈ [Rule.yesWord, .noWord, .trueWord, .falseWord, .float, .int] :=
  forall_byte (P := fun c => isNameChar c = true →
    (∀ r ∈ candidates .initial c, r ∈ [Rule.yesWord, .noWord, .trueWord, .falseWord]) ∧
      ∀ r ∈ candidates .pv c, r ∈ [Rule.yesWord, .noWord, .trueWord, .falseWord, .float, .int])
    (by decide +kernel)

theorem words_lower : ∀ word ∈ words, word.map toLower = word := by decide

theorem word_rule {word : Bytes} (hword : word ∈ words) (start : StartCondition) :
    ∃ r ∈ activeRules start, ∀ text, Matches r.pattern text ↔ text.map toLower = word := by
  have hactive (r : Rule) (hr : r ∈ otherRules) (hstart : r.start = none) :
      r ∈ activeRules start := by
    rw [activeRules_eq]
    exact List.mem_append_right _ (List.mem_filter.mpr ⟨hr, by simp [hstart]⟩)
  rw [words, List.mem_cons, List.mem_cons, List.mem_cons, List.mem_singleton] at hword
  rcases hword with rfl | rfl | rfl | rfl
  · exact ⟨.yesWord, hactive _ (by decide) rfl, fun _ => matches_anyCase⟩
  · exact ⟨.noWord, hactive _ (by decide) rfl, fun _ => matches_anyCase⟩
  · exact ⟨.trueWord, hactive _ (by decide) rfl, fun _ => matches_anyCase⟩
  · exact ⟨.falseWord, hactive _ (by decide) rfl, fun _ => matches_anyCase⟩

/-- The default rule, or a word or number that the name contains here. -/
theorem scan_name (hstart : s.start = .initial ∨ s.start = .pv) (hc : isNameChar c = true)
    (text : Bytes) :
    (scan s (c :: text) = (.next, s, text) ∧ ∀ word ∈ words, ¬ word <+: c :: text) ∨
      (∃ token s' rest, scan s (c :: text) = (.returns token, s', rest) ∧ token.isValue = true) ∧
        (s.start = .initial → ∃ front, front <+: c :: text ∧ front.map toLower ∈ words) := by
  have hdollar : c ≠ dollarSign := by
    rintro rfl
    exact absurd hc (by decide)
  have hat : c ≠ atSign := by
    rintro rfl
    exact absurd hc (by decide)
  cases hselect : select Rule.pattern (activeRules s.start) (c :: text) with
  | none =>
    refine .inl ⟨by simp [scan, hselect], fun word hword hbegins => ?_⟩
    obtain ⟨r, hr, hmatches⟩ := word_rule hword s.start
    have hempty := empty_of_select_none hselect r hr word hbegins
      ((hmatches word).mpr (words_lower word hword))
    rw [hempty] at hword
    exact absurd hword (by decide)
  | some best =>
    obtain ⟨n, r⟩ := best
    have hselect' := hselect
    rw [select_candidates hdollar hat] at hselect'
    obtain ⟨hmem, hpos, hlongest⟩ := select_matches hselect'
    obtain ⟨front, rest, htext, hlength, hfits⟩ := longest_matches hlongest
    have hscan : scan s (c :: text) =
        ((r.action front s).1, (r.action front s).2, rest) := by
      rw [htext] at hselect ⊢
      exact scan_select (hlength ▸ hselect)
    have hkind : r ∈ [Rule.yesWord, .noWord, .trueWord, .falseWord, .float, .int] := by
      rcases hstart with h | h
      · rw [h] at hmem
        exact List.mem_append_left [Rule.float, .int] ((name_candidates c hc).1 r hmem)
      · rw [h] at hmem
        exact (name_candidates c hc).2 r hmem
    refine .inr ⟨?_, fun h => ⟨front, ⟨rest, htext.symm⟩, ?_⟩⟩
    · simp only [List.mem_cons, List.not_mem_nil, or_false] at hkind
      rcases hkind with rfl | rfl | rfl | rfl | rfl | rfl
      all_goals exact ⟨_, _, _, hscan, rfl⟩
    · rw [h] at hmem
      have hword := (name_candidates c hc).1 r hmem
      simp only [List.mem_cons, List.not_mem_nil, or_false] at hword
      rcases hword with rfl | rfl | rfl | rfl
      all_goals
        rw [matches_anyCase.mp hfits]
        decide

end ChaosVpn.ConfigLexer
