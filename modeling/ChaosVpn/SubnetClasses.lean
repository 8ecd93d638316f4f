import ChaosVpn.ExcludedNodes
import ChaosVpn.Library.ExtendedRegex
import ChaosVpn.Numerals

/-! Which of the two branches in subnet-up and subnet-down a subnet takes: the texts that tincd
puts into `$SUBNET` against the patterns for grep -E. -/

namespace ChaosVpn.SubnetClasses
open CStrings Libc Settings RouteScript SubnetScript ExcludedNodes Numerals
open ExtendedRegex ExtendedRegex.Regex

/-! What tincd puts into `$SUBNET` -/

abbrev dot : UInt8 := 46

def isHexDigit (c : UInt8) : Bool :=
  (48 ≤ c && c ≤ 57) || (97 ≤ c && c ≤ 102) || (65 ≤ c && c ≤ 70)

/-- Four digits of an IPv6 address, without some of its leading zeros. -/
structure Group where
  text : Bytes
  length_pos : 1 ≤ text.length
  length_le : text.length ≤ 4
  hex : ∀ c ∈ text, isHexDigit c = true

def joined (groups : List Group) : Bytes := [colon].intercalate (groups.map Group.text)

/-- The hexadecimal forms of an IPv6 address. Two colons stand for one group or more. -/
inductive Address6
  | full (groups : List Group) (eight : groups.length = 8)
  | compressed (left right : List Group) (seven : left.length + right.length ≤ 7)

def Address6.text : Address6 → Bytes
  | full groups _ => joined groups
  | compressed left right _ => joined left ++ [colon, colon] ++ joined right

def address4 (a b c d : UInt8) : Bytes :=
  [a, b, c].flatMap (fun octet => decimal octet.toNat ++ [dot]) ++ decimal d.toNat

/-- A subnet with its prefix length, which is left out when it is the whole address. -/
inductive Subnet
  | ipv4 (a b c d : UInt8) (length : Nat) (length_le : length ≤ 32)
  | ipv6 (address : Address6) (length : Nat) (length_le : length ≤ 128)

namespace Subnet

def family : Subnet → Family
  | ipv4 .. => .inet
  | ipv6 .. => .inet6

def length : Subnet → Nat
  | ipv4 _ _ _ _ length _ => length
  | ipv6 _ length _ => length

def lengthText (whole length : Nat) : Bytes :=
  if length = whole then [] else slash :: decimal length

def text : Subnet → Bytes
  | ipv4 a b c d length _ => address4 a b c d ++ lengthText 32 length
  | ipv6 address length _ => address.text ++ lengthText 128 length

end Subnet

/-! The branches of the script -/

/-- The lines that grep reads. -/
def inputLines (input : Bytes) : List Bytes :=
  let lines := input.splitOn lineFeed
  if lines.getLast? = some [] then lines.dropLast else lines

/-- `grep -q -E` with a pattern that it can read. -/
def Greps (pattern input : Bytes) : Prop :=
  ∃ r, parse pattern = some r ∧ ∃ line ∈ inputLines input, r.Found line

/-- A test of `$SUBNET` and the commands in its branch, of which the last one is `exit 0`. -/
structure Branch where
  family : Family
  commands : Bytes

def Branch.written (branch : Branch) : Bytes :=
  ascii "if echo \"$SUBNET\" | grep -q -E \x27" ++ subnetPattern branch.family ++
    ascii "\x27 ; then\n" ++ branch.commands ++ ascii "fi\n"

/-- The shell takes the first branch whose test succeeds, with whatever echo prints. -/
def Takes (echo : Bytes → Bytes) (branches : List Branch) (subnet : Bytes) (family : Family) :
    Prop :=
  ∃ before branch after, branches = before ++ branch :: after ∧ branch.family = family ∧
    Greps (subnetPattern family) (echo subnet) ∧
    ∀ other ∈ before, ¬ Greps (subnetPattern other.family) (echo subnet)

/-- An operand without a backslash that is no option is printed as it is. -/
def EchoPlain (echo : Bytes → Bytes) : Prop :=
  ∀ text : Bytes, 92 ∉ text → text.head? ≠ some 45 → echo text = text ++ [lineFeed]

/-- The branch of a family with a route command: it logs the subnet, runs the command and leaves
the script. -/
def routeBranch (up : Bool) (family : Family) (route : Bytes) : Branch where
  family := family
  commands := ascii "\t" ++ (loggerHead up ++ familyName family ++ loggerMiddle ++ loggerTail) ++
    (ascii "\t" ++ route ++ ascii "\n") ++ (ascii "\t" ++ localScript) ++ ascii "\texit 0\n"

def RunsRoute (libc : CLibrary) (config : Config) (up : Bool) (branch : Branch) : Prop :=
  ∃ route, concatF libc ((routecmd config up branch.family).getD []) (ascii "$SUBNET") =
    some route ∧ branch = routeBranch up branch.family route

variable {libc : CLibrary} {config : Config} {up : Bool} {family : Family}

theorem subnetBlock_branch {text : Bytes} (hroutes : hasRoutes config up family = true)
    (h : subnetBlock libc config up family = some text) :
    ∃ branch, branch.family = family ∧ RunsRoute libc config up branch ∧
      text = branch.written := by
  rw [subnetBlock, if_pos hroutes, if_pos hroutes, logger_eq] at h
  cases hroute : concatF libc ((routecmd config up family).getD []) (ascii "$SUBNET") with
  | none =>
    rw [hroute] at h
    cases h
  | some route =>
    rw [hroute] at h
    cases h
    refine ⟨routeBranch up family route, rfl, ⟨route, hroute, rfl⟩, ?_⟩
    simp only [Branch.written, routeBranch, List.append_assoc, List.append_nil, List.nil_append]

/-- The script ends with the two branches and with what is done for any other text. -/
theorem tincWriteSubnetupdown_branches (hdynamic : config.useDynamicRoutes = true)
    (hroutes : ∀ family, hasRoutes config up family = true) {file : Written}
    (h : tincWriteSubnetupdown libc config up = some (.generated file)) :
    ∃ (before : Bytes) (branches : List Branch) (after : Bytes),
      file.contents = before ++ branches.flatMap Branch.written ++ after ∧
      branches.map Branch.family = [.inet, .inet6] ∧
      ∀ branch ∈ branches, RunsRoute libc config up branch := by
  obtain ⟨routes, hblocks, hcontents⟩ := tincWriteSubnetupdown_eq hdynamic h
  obtain ⟨text4, _, h4, hlater, rfl⟩ := concatAll_cons_eq_some.mp hblocks
  obtain ⟨text6, after, h6, -, rfl⟩ := concatAll_cons_eq_some.mp hlater
  obtain ⟨branch4, hfamily4, hruns4, rfl⟩ := subnetBlock_branch (hroutes .inet) h4
  obtain ⟨branch6, hfamily6, hruns6, rfl⟩ := subnetBlock_branch (hroutes .inet6) h6
  refine ⟨scriptStart ++ (ownNodeTest config.peerid ++
    excludeText up (excludedWords config.exclude)), [branch4, branch6], after, ?_, ?_, ?_⟩
  · rw [hcontents]
    simp only [List.flatMap_cons, List.flatMap_nil, List.append_assoc, List.append_nil]
  · simp [hfamily4, hfamily6]
  · simp [hruns4, hruns6]

/-! The patterns -/

def digit : Regex UInt8 := .set [(48, 57)]

def octet : Regex UInt8 :=
  alt (seq (literal 50) (seq (literal 53) (set [(48, 53)])))
    (seq (repeated (alt (seq (literal 50) (set [(48, 52)]))
      (seq (repeated (literal 49) 0 1) digit)) 0 1) digit)

def length4 : Regex UInt8 :=
  alt digit (alt (seq (set [(49, 49), (50, 50)]) digit)
    (seq (literal 51) (set [(48, 48), (49, 49), (50, 50)])))

def group : Regex UInt8 := repeated (set [(48, 57), (97, 102), (65, 70)]) 1 4

/-- So many groups with a colon behind each, and with one in front of each. -/
def groupsBefore (least most : Nat) : Regex UInt8 :=
  repeated (seq group (literal colon)) least most

def groupsAfter (least most : Nat) : Regex UInt8 :=
  repeated (seq (literal colon) group) least most

def address6 : Regex UInt8 :=
  alt (seq (groupsBefore 7 7) group)
  (alt (seq (groupsBefore 1 7) (literal colon))
  (alt (seq (groupsBefore 1 6) (seq (literal colon) group))
  (alt (seq (groupsBefore 1 5) (groupsAfter 1 2))
  (alt (seq (groupsBefore 1 4) (groupsAfter 1 3))
  (alt (seq (groupsBefore 1 3) (groupsAfter 1 4))
  (alt (seq (groupsBefore 1 2) (groupsAfter 1 5))
  (alt (seq group (seq (literal colon) (groupsAfter 1 6)))
    (seq (literal colon) (alt (groupsAfter 1 7) (literal colon))))))))))

def length6 : Regex UInt8 :=
  alt (repeated digit 1 2) (alt (seq (literal 49) (seq (set [(48, 48), (49, 49)]) digit))
    (seq (literal 49) (seq (literal 50) (set [(48, 56)]))))

/-- What stands between the anchors. -/
def parts : Family → List (Regex UInt8)
  | .inet =>
    [repeated (seq octet (literal dot)) 3 3, octet, repeated (seq (literal slash) length4) 0 1]
  | .inet6 => [address6, literal slash, length6]

def whole (family : Family) : Regex UInt8 := (parts family).foldr seq stop

theorem parse_subnetPattern (family : Family) :
    parse (subnetPattern family) = some (seq start (whole family)) := by
  cases family <;> decide +kernel

theorem parts_free (family : Family) : ∀ r ∈ parts family, r.free = true := by
  cases family <;> decide

theorem inputLines_line {text : Bytes} (h : lineFeed ∉ text) :
    inputLines (text ++ [lineFeed]) = [text] := by
  have hlines : ([text].flatMap (· ++ [lineFeed])).splitOn lineFeed = [text] ++ [[]] :=
    TextLines.splitOn_lines (by simpa using h)
  rw [List.flatMap_singleton] at hlines
  rw [inputLines, hlines]
  rfl

/-- For one line grep asks for a text that the pattern stands for. -/
theorem greps_line {text : Bytes} (h : lineFeed ∉ text) (family : Family) :
    Greps (subnetPattern family) (text ++ [lineFeed]) ↔ (whole family).Denotes text := by
  rw [Greps, parse_subnetPattern, inputLines_line h]
  constructor
  · rintro ⟨r, hr, line, hline, hfound⟩
    cases hr
    rw [List.mem_singleton.mp hline] at hfound
    exact (found_anchored (parts_free family)).mp hfound
  · intro hdenotes
    have hfound := (found_anchored (parts_free family)).mpr hdenotes
    exact ⟨_, rfl, text, List.mem_singleton_self text, hfound⟩

/-! No text matches both -/

theorem dot_of_whole4 {text : Bytes} (h : (whole .inet).Denotes text) : dot ∈ text := by
  obtain ⟨first, rest, rfl, ⟨pieces, hleast, -, rfl, hpieces⟩, -⟩ := h
  cases pieces with
  | nil => cases hleast
  | cons piece pieces =>
    obtain ⟨octet, _, rfl, -, c, rfl, i, hi, hlow, hhigh⟩ := hpieces piece List.mem_cons_self
    obtain rfl := List.mem_singleton.mp hi
    obtain rfl : dot = c := UInt8.le_antisymm hlow hhigh
    simp

theorem slash_of_whole6 {text : Bytes} (h : (whole .inet6).Denotes text) : slash ∈ text := by
  obtain ⟨address, _, rfl, -, _, rest, rfl, ⟨c, rfl, i, hi, hlow, hhigh⟩, -⟩ := h
  obtain rfl := List.mem_singleton.mp hi
  obtain rfl : slash = c := UInt8.le_antisymm hlow hhigh
  simp

theorem no_dot_of_whole6 {text : Bytes} (h : (whole .inet6).Denotes text) : dot ∉ text := by
  have havoids : (whole .inet6).Avoids dot := by decide
  exact havoids.not_mem h

theorem not_both {text : Bytes} (h4 : (whole .inet).Denotes text) : ¬ (whole .inet6).Denotes text :=
  fun h6 => no_dot_of_whole6 h6 (dot_of_whole4 h4)

/-! The subnets -/

theorem octet_decimal (o : UInt8) : octet.Denotes (decimal o.toNat) := by
  have hall : ∀ n < 256, octet.Denotes (decimal n) := by decide +kernel
  exact hall o.toNat o.toNat_lt

theorem length4_decimal {n : Nat} (h : n ≤ 32) : length4.Denotes (decimal n) := by
  have hall : ∀ n < 33, length4.Denotes (decimal n) := by decide
  exact hall n (by omega)

theorem length6_decimal {n : Nat} (h : n ≤ 128) : length6.Denotes (decimal n) := by
  have hall : ∀ n < 129, length6.Denotes (decimal n) := by decide
  exact hall n (by omega)

theorem denotes_literal (c : UInt8) : (literal c).Denotes [c] :=
  ⟨c, rfl, (c, c), List.mem_singleton_self _, UInt8.le_refl c, UInt8.le_refl c⟩

theorem whole4_text (a b c d : UInt8) {length : Nat} (h : length ≤ 32) :
    (whole .inet).Denotes (address4 a b c d ++ Subnet.lengthText 32 length) := by
  have hlength : (repeated (seq (literal slash) length4) 0 1).Denotes
      (Subnet.lengthText 32 length) := by
    unfold Subnet.lengthText
    split
    · exact ⟨[], Nat.le_refl 0, Nat.zero_le 1, rfl, fun _ hpiece => nomatch hpiece⟩
    · refine ⟨[slash :: decimal length], Nat.zero_le 1, Nat.le_refl 1, by simp, ?_⟩
      exact List.forall_mem_singleton.mpr
        (denotes_seq (denotes_literal slash) (length4_decimal h))
  have hfirst : (repeated (seq octet (literal dot)) 3 3).Denotes
      ([a, b, c].flatMap fun o => decimal o.toNat ++ [dot]) :=
    denotes_flatMap (Nat.le_refl 3) (Nat.le_refl 3) fun o _ =>
      denotes_seq (octet_decimal o) (denotes_literal dot)
  have hstop : (stop : Regex UInt8).Denotes [] := rfl
  have hwhole := denotes_seq hfirst (denotes_seq (octet_decimal d) (denotes_seq hlength hstop))
  rw [List.append_nil, ← List.append_assoc] at hwhole
  exact hwhole

/-! Groups and colons -/

theorem Group.denotes (g : Group) : group.Denotes g.text := by
  refine denotes_repeated_set.mpr ⟨g.length_pos, g.length_le, fun c hc => ?_⟩
  have hex := g.hex c hc
  simp only [isHexDigit, Bool.or_eq_true, Bool.and_eq_true, decide_eq_true_eq] at hex
  rcases hex with (hdigit | hlower) | hupper
  · exact ⟨(48, 57), by simp, hdigit⟩
  · exact ⟨(97, 102), by simp, hlower⟩
  · exact ⟨(65, 70), by simp, hupper⟩

theorem joined_cons (g : Group) (groups : List Group) :
    joined (g :: groups) = g.text ++ groups.flatMap fun h => colon :: h.text := by
  induction groups generalizing g with
  | nil => simp [joined]
  | cons h groups ih =>
    have hjoined : joined (g :: h :: groups) = g.text ++ colon :: joined (h :: groups) := by
      simp [joined, List.intercalate]
    rw [hjoined, ih h, List.flatMap_cons, List.cons_append]

theorem joined_concat (groups : List Group) (g : Group) :
    joined (groups ++ [g]) = (groups.flatMap fun h => h.text ++ [colon]) ++ g.text := by
  induction groups with
  | nil => simp [joined]
  | cons h groups ih =>
    have hjoined : joined (h :: (groups ++ [g])) = h.text ++ colon :: joined (groups ++ [g]) := by
      cases groups <;> simp [joined_cons]
    rw [List.cons_append, hjoined, ih]
    simp

theorem groupsBefore_denotes {least most : Nat} {groups : List Group}
    (hleast : least ≤ groups.length) (hmost : groups.length ≤ most) :
    (groupsBefore least most).Denotes (groups.flatMap fun g => g.text ++ [colon]) :=
  denotes_flatMap hleast hmost fun g _ => denotes_seq g.denotes (denotes_literal colon)

theorem groupsAfter_denotes {least most : Nat} {groups : List Group}
    (hleast : least ≤ groups.length) (hmost : groups.length ≤ most) :
    (groupsAfter least most).Denotes (groups.flatMap fun g => colon :: g.text) :=
  denotes_flatMap hleast hmost fun g _ => denotes_seq (denotes_literal colon) g.denotes

theorem before_colon {groups : List Group} (hne : groups ≠ []) :
    joined groups ++ [colon] = groups.flatMap fun g => g.text ++ [colon] := by
  obtain ⟨init, last, rfl⟩ := (List.eq_nil_or_concat' groups).resolve_left hne
  simp [joined_concat]

theorem after_colon {groups : List Group} (hne : groups ≠ []) :
    colon :: joined groups = groups.flatMap fun g => colon :: g.text := by
  obtain ⟨g, rest, rfl⟩ := List.exists_cons_of_ne_nil hne
  simp [joined_cons]

/-! The nine alternatives -/

theorem address6_full {groups : List Group} (eight : groups.length = 8) :
    address6.Denotes (joined groups) := by
  have hne : groups ≠ [] := by
    rintro rfl
    cases eight
  obtain ⟨init, last, rfl⟩ := (List.eq_nil_or_concat' groups).resolve_left hne
  have hinit : init.length = 7 := by simpa using eight
  rw [joined_concat]
  exact denotes_left (denotes_seq
    (groupsBefore_denotes (Nat.le_of_eq hinit.symm) (Nat.le_of_eq hinit)) last.denotes)

/-- Groups on both sides of the two colons. -/
theorem address6_between {left right : List Group} (hleft : left ≠ []) (hright : right ≠ [])
    (seven : left.length + right.length ≤ 7) :
    address6.Denotes ((left.flatMap fun g => g.text ++ [colon]) ++
      right.flatMap fun g => colon :: g.text) := by
  have hl := List.length_pos_iff.mpr hleft
  have hr := List.length_pos_iff.mpr hright
  have hpair : ∀ {m n : Nat}, left.length ≤ m → right.length ≤ n →
      (seq (groupsBefore 1 m) (groupsAfter 1 n)).Denotes
        ((left.flatMap fun g => g.text ++ [colon]) ++ right.flatMap fun g => colon :: g.text) :=
    fun hm hn => denotes_seq (groupsBefore_denotes hl hm) (groupsAfter_denotes hr hn)
  have hcases : left.length = 1 ∨ left.length = 2 ∨ left.length = 3 ∨ left.length = 4 ∨
      left.length = 5 ∨ left.length = 6 := by omega
  refine denotes_right (denotes_right ?_)
  rcases hcases with h | h | h | h | h | h
  · obtain ⟨g, rfl⟩ := List.length_eq_one_iff.mp h
    have hone : (seq group (seq (literal colon) (groupsAfter 1 6))).Denotes
        (g.text ++ ([colon] ++ right.flatMap fun g => colon :: g.text)) :=
      denotes_seq g.denotes
        (denotes_seq (denotes_literal colon) (groupsAfter_denotes hr (by omega)))
    rw [List.flatMap_singleton, List.append_assoc]
    exact denotes_right (denotes_right (denotes_right (denotes_right (denotes_right
      (denotes_left hone)))))
  · exact denotes_right (denotes_right (denotes_right (denotes_right
      (denotes_left (hpair (by omega) (by omega))))))
  · exact denotes_right (denotes_right (denotes_right (denotes_left (hpair (by omega) (by omega)))))
  · exact denotes_right (denotes_right (denotes_left (hpair (by omega) (by omega))))
  · exact denotes_right (denotes_left (hpair (by omega) (by omega)))
  · obtain ⟨g, rfl⟩ := List.length_eq_one_iff.mp (by omega : right.length = 1)
    have hlast : (seq (literal colon) group).Denotes ([colon] ++ g.text) :=
      denotes_seq (denotes_literal colon) g.denotes
    rw [List.flatMap_singleton]
    exact denotes_left (denotes_seq (groupsBefore_denotes hl (by omega)) hlast)

theorem address6_compressed {left right : List Group} (seven : left.length + right.length ≤ 7) :
    address6.Denotes (joined left ++ [colon, colon] ++ joined right) := by
  by_cases hleft : left = []
  · have hfront : (seq (literal colon) (alt (groupsAfter 1 7) (literal colon))).Denotes
        ([colon] ++ colon :: joined right) := by
      refine denotes_seq (denotes_literal colon) ?_
      by_cases hright : right = []
      · rw [hright]
        exact denotes_right (denotes_literal colon)
      · rw [after_colon hright]
        exact denotes_left (groupsAfter_denotes (List.length_pos_iff.mpr hright) (by omega))
    rw [hleft]
    exact denotes_right (denotes_right (denotes_right (denotes_right (denotes_right
      (denotes_right (denotes_right (denotes_right hfront)))))))
  · have hsplit : joined left ++ [colon, colon] ++ joined right =
        (left.flatMap fun g => g.text ++ [colon]) ++ colon :: joined right := by
      rw [← before_colon hleft]
      simp
    rw [hsplit]
    by_cases hright : right = []
    · rw [hright]
      exact denotes_right (denotes_left (denotes_seq
        (groupsBefore_denotes (List.length_pos_iff.mpr hleft) (by omega)) (denotes_literal colon)))
    · rw [after_colon hright]
      exact address6_between hleft hright seven

theorem Address6.denotes (address : Address6) : address6.Denotes address.text := by
  cases address with
  | full groups eight => exact address6_full eight
  | compressed left right seven => exact address6_compressed seven

theorem whole6_text (address : Address6) {length : Nat} (h : length ≤ 128) :
    (whole .inet6).Denotes (address.text ++ slash :: decimal length) := by
  have hstop : (stop : Regex UInt8).Denotes [] := rfl
  have hwhole := denotes_seq address.denotes
    (denotes_seq (denotes_literal slash) (denotes_seq (length6_decimal h) hstop))
  rw [List.append_nil] at hwhole
  exact hwhole

/-- Without its prefix length an address does not match. -/
theorem not_whole6_address (address : Address6) : ¬ (whole .inet6).Denotes address.text := by
  have havoids : address6.Avoids slash := by decide
  exact fun h => havoids.not_mem address.denotes (slash_of_whole6 h)

/-- A text of the bytes of subnets: one line, and nothing that echo takes for something else. -/
def PlainText (text : Bytes) : Prop := lineFeed ∉ text ∧ 92 ∉ text ∧ 45 ∉ text

theorem plainText_of_denotes {r : Regex UInt8} {text : Bytes}
    (hr : ∀ c ∈ [lineFeed, 92, 45], r.Avoids c) (h : r.Denotes text) : PlainText text :=
  ⟨(hr lineFeed (by simp)).not_mem h, (hr 92 (by simp)).not_mem h, (hr 45 (by simp)).not_mem h⟩

theorem Subnet.plainText (subnet : Subnet) : PlainText subnet.text := by
  cases subnet with
  | ipv4 a b c d length length_le =>
    exact plainText_of_denotes (by decide) (whole4_text a b c d length_le)
  | ipv6 address length length_le =>
    rw [Subnet.text, Subnet.lengthText]
    split
    · rw [List.append_nil]
      exact plainText_of_denotes (by decide) address.denotes
    · exact plainText_of_denotes (by decide) (whole6_text address length_le)

theorem greps_subnet {echo : Bytes → Bytes} (hecho : EchoPlain echo) (subnet : Subnet)
    (family : Family) :
    Greps (subnetPattern family) (echo subnet.text) ↔ (whole family).Denotes subnet.text := by
  obtain ⟨hfeed, hbackslash, hdash⟩ := subnet.plainText
  rw [hecho subnet.text hbackslash fun h => hdash (List.mem_of_mem_head? h), greps_line hfeed]

/-! The branch that is taken -/

variable {echo : Bytes → Bytes} {branches : List Branch} {subnet : Bytes}

theorem takes_inet (hfamilies : branches.map Branch.family = [.inet, .inet6]) :
    Takes echo branches subnet .inet ↔ Greps (subnetPattern .inet) (echo subnet) := by
  obtain ⟨branch4, rest, rfl, hfamily4, -⟩ := List.map_eq_cons_iff.mp hfamilies
  constructor
  · rintro ⟨before, branch, after, -, -, hgreps, -⟩
    exact hgreps
  · exact fun hgreps => ⟨[], branch4, rest, rfl, hfamily4, hgreps, fun _ hother => nomatch hother⟩

theorem takes_inet6 (hfamilies : branches.map Branch.family = [.inet, .inet6]) :
    Takes echo branches subnet .inet6 ↔
      ¬ Greps (subnetPattern .inet) (echo subnet) ∧ Greps (subnetPattern .inet6) (echo subnet) := by
  obtain ⟨branch4, rest, rfl, hfamily4, hrest⟩ := List.map_eq_cons_iff.mp hfamilies
  obtain ⟨branch6, after, rfl, hfamily6, -⟩ := List.map_eq_cons_iff.mp hrest
  constructor
  · rintro ⟨before, branch, after', hbranches, hfamily, hgreps, hbefore⟩
    refine ⟨?_, hgreps⟩
    cases before with
    | nil =>
      cases hbranches
      cases hfamily4.symm.trans hfamily
    | cons other before =>
      obtain ⟨rfl, -⟩ := List.cons.inj hbranches
      rw [← hfamily4]
      exact hbefore branch4 List.mem_cons_self
  · rintro ⟨hnot, hgreps⟩
    refine ⟨[branch4], branch6, after, rfl, hfamily6, hgreps, ?_⟩
    rw [List.forall_mem_singleton, hfamily4]
    exact hnot

theorem takes_subnet_iff (hecho : EchoPlain echo)
    (hfamilies : branches.map Branch.family = [.inet, .inet6]) (subnet : Subnet) :
    Takes echo branches subnet.text subnet.family ↔
      subnet.family = .inet ∨ subnet.length < 128 := by
  cases subnet with
  | ipv4 a b c d length length_le =>
    refine iff_of_true ?_ (.inl rfl)
    exact (takes_inet hfamilies).mpr
      ((greps_subnet hecho (.ipv4 a b c d length length_le) .inet).mpr
        (whole4_text a b c d length_le))
  | ipv6 address length length_le =>
    have hgreps := greps_subnet hecho (.ipv6 address length length_le)
    refine (takes_inet6 hfamilies).trans ?_
    rw [hgreps, hgreps, or_iff_right (by nofun)]
    change ¬ (whole .inet).Denotes (address.text ++ Subnet.lengthText 128 length) ∧
      (whole .inet6).Denotes (address.text ++ Subnet.lengthText 128 length) ↔ length < 128
    by_cases hwhole : length = 128
    · rw [Subnet.lengthText, if_pos hwhole, List.append_nil]
      exact iff_of_false (fun h => not_whole6_address address h.2) (by omega)
    · rw [Subnet.lengthText, if_neg hwhole]
      have h6 := whole6_text address length_le
      exact iff_of_true ⟨fun h4 => not_both h4 h6, h6⟩ (by omega)

/-- Every subnet takes the branch of its family, but for single IPv6 addresses, and no text takes
both branches or matches both patterns. -/
theorem classified_iff (hecho : EchoPlain echo) (hdynamic : config.useDynamicRoutes = true)
    (hroutes : ∀ family, hasRoutes config up family = true) {file : Written}
    (h : tincWriteSubnetupdown libc config up = some (.generated file)) :
    ∃ (before : Bytes) (branches : List Branch) (after : Bytes),
      file.contents = before ++ branches.flatMap Branch.written ++ after ∧
      (∀ branch ∈ branches, RunsRoute libc config up branch) ∧
      (∀ subnet : Subnet, Takes echo branches subnet.text subnet.family ↔
        subnet.family = .inet ∨ subnet.length < 128) ∧
      (∀ text, ¬ (Takes echo branches text .inet ∧ Takes echo branches text .inet6)) ∧
      ∀ line, lineFeed ∉ line → ¬ (Greps (subnetPattern .inet) (line ++ [lineFeed]) ∧
        Greps (subnetPattern .inet6) (line ++ [lineFeed])) := by
  obtain ⟨before, branches, after, hcontents, hfamilies, hruns⟩ :=
    tincWriteSubnetupdown_branches hdynamic hroutes h
  refine ⟨before, branches, after, hcontents, hruns, takes_subnet_iff hecho hfamilies, ?_, ?_⟩
  · rintro text ⟨h4, h6⟩
    exact ((takes_inet6 hfamilies).mp h6).1 ((takes_inet hfamilies).mp h4)
  · intro line hline
    rw [greps_line hline, greps_line hline]
    exact fun ⟨h4, h6⟩ => not_both h4 h6

/-- Routes of both families that tincd reports. -/
def dualConfig : Config where
  peerid := ascii "office"
  networkname := ascii "chaos"
  basePath := ascii "/etc/tinc/chaos"
  vpnIp := some (ascii "172.31.0.1")
  vpnIp6 := some (ascii "fd00::1")
  routeadd := some (ascii "ip route add %s dev vpn")
  routeadd6 := some (ascii "ip -6 route add %s dev vpn")
  useDynamicRoutes := true

theorem dualConfig_written :
    ∃ file, tincWriteSubnetupdown plainLibrary dualConfig true = some (.generated file) :=
  tincWriteSubnetupdown_written rfl (by rintro (_ | _) <;> decide)

theorem hasRoutes_dualConfig : ∀ family, hasRoutes dualConfig true family = true := by
  rintro (_ | _) <;> decide

def plainEcho (text : Bytes) : Bytes := text ++ [lineFeed]

def groupOne : Group := ⟨ascii "1", by decide, by decide, by decide⟩

def singleAddress (length : Nat) (h : length ≤ 128) : Subnet :=
  .ipv6 (.compressed [] [groupOne] (by decide)) length h

theorem classified_network : ∃ (branches : List Branch) (file : Written),
    tincWriteSubnetupdown plainLibrary dualConfig true = some (.generated file) ∧
      branches.flatMap Branch.written <:+: file.contents ∧
      Takes plainEcho branches (ascii "::1/127") .inet6 := by
  obtain ⟨file, hfile⟩ := dualConfig_written
  have hecho : EchoPlain plainEcho := fun _ _ _ => rfl
  obtain ⟨before, branches, after, hcontents, -, hclassified, -⟩ :=
    classified_iff hecho rfl hasRoutes_dualConfig hfile
  have htext : (singleAddress 127 (by decide)).text = ascii "::1/127" := by decide
  have htakes := (hclassified (singleAddress 127 (by decide))).mpr (.inr (by decide))
  rw [htext] at htakes
  exact ⟨branches, file, hfile, ⟨before, after, hcontents.symm⟩, htakes⟩

/-- The single address `::1`, which tincd reports without a length, takes neither branch. -/
theorem singleAddress_unknown :
    (singleAddress 128 (by decide)).text = ascii "::1" ∧
      ∃ (branches : List Branch) (file : Written),
        tincWriteSubnetupdown plainLibrary dualConfig true = some (.generated file) ∧
          branches.flatMap Branch.written <:+: file.contents ∧
          branches.map Branch.family = [.inet, .inet6] ∧
          ∀ family, ¬ Takes plainEcho branches (ascii "::1") family := by
  have htext : (singleAddress 128 (by decide)).text = ascii "::1" := by decide
  obtain ⟨file, hfile⟩ := dualConfig_written
  obtain ⟨before, branches, after, hcontents, hfamilies, -⟩ :=
    tincWriteSubnetupdown_branches rfl hasRoutes_dualConfig hfile
  refine ⟨htext, branches, file, hfile, ⟨before, after, hcontents.symm⟩, hfamilies, ?_⟩
  have hgreps : ∀ family, Greps (subnetPattern family) (plainEcho (ascii "::1")) ↔
      (whole family).Denotes (ascii "::1") := greps_line (by decide)
  rintro (_ | _)
  · rw [takes_inet hfamilies, hgreps]
    exact fun h => absurd (dot_of_whole4 h) (by decide)
  · rw [takes_inet6 hfamilies, hgreps, hgreps]
    exact fun h => absurd (slash_of_whole6 h.2) (by decide)

end ChaosVpn.SubnetClasses
