import ChaosVpn.SubnetScript

/-! What a shell makes of the tests in subnet-up and subnet-down. Of the shell no more is
modelled than the commands in front of the routes: blank lines and comments, tests of
`$NODE` against a quoted word, and the variable `excluded`. -/

namespace ChaosVpn.ExcludedNodes
open CStrings Libc Settings RouteScript SubnetScript

abbrev apostrophe : UInt8 := 39

def nodeTest : Bytes := ascii "[ \"$NODE\" = "
def andExit : Bytes := ascii " ] && exit 0\n"
def andExclude : Bytes := ascii " ] && excluded=1\n"
def clearExcluded : Bytes := ascii "excluded=\"\"\n"
def ifExcluded : Bytes := ascii "if [ -n \"$excluded\" ] ; then\n"
def endIf : Bytes := ascii "\nfi\n"

/-- What follows a literal text. -/
def afterLiteral (literal text : Bytes) : Option Bytes :=
  if literal <+: text then some (text.drop literal.length) else none

/-- A word in single quotes: nothing between them has a meaning to the shell. -/
def quotedWord : Bytes → Option (Bytes × Bytes)
  | [] => none
  | c :: text =>
    if c = apostrophe then (strSplitAt apostrophe text).2.map ((strSplitAt apostrophe text).1, ·)
    else none

/-- The text behind the first line `fi`. -/
def afterIf : Bytes → Bytes
  | [] => []
  | c :: text => if endIf <+: c :: text then (c :: text).drop endIf.length else afterIf text

inductive Command
  | skip
  | exitIfNode (word : Bytes)
  | excludeIfNode (word : Bytes)
  | clear
  | exitIfExcluded

/-- A command in front of the routes and the text behind it. -/
def readCommand (text : Bytes) : Option (Command × Bytes) :=
  if text.head? = some lineFeed then some (.skip, text.drop 1)
  else if text.head? = some hash then (strSplitAt lineFeed text).2.map (.skip, ·)
  else
    match (afterLiteral nodeTest text).bind quotedWord with
    | some (word, rest) =>
      match afterLiteral andExit rest with
      | some rest => some (.exitIfNode word, rest)
      | none => (afterLiteral andExclude rest).map (.excludeIfNode word, ·)
    | none =>
      match afterLiteral clearExcluded text with
      | some rest => some (.clear, rest)
      | none => (afterLiteral ifExcluded text).map fun body => (.exitIfExcluded, afterIf body)

/-- How a node leaves the tests. -/
inductive Outcome
  | ownNode
  | excluded
  | goesOn (text : Bytes)

/-- The commands of a text run one after the other, `excluded` being whether the variable
has a value. -/
def run (node : Bytes) : Nat → Bool → Bytes → Outcome
  | 0, _, text => .goesOn text
  | fuel + 1, excluded, text =>
    match readCommand text with
    | none => .goesOn text
    | some (.skip, rest) => run node fuel excluded rest
    | some (.exitIfNode word, rest) =>
      if node = word then .ownNode else run node fuel excluded rest
    | some (.excludeIfNode word, rest) => run node fuel (excluded || node = word) rest
    | some (.clear, rest) => run node fuel false rest
    | some (.exitIfExcluded, rest) => if excluded then .excluded else run node fuel excluded rest

/-- A shell script has an empty variable to begin with, and no more commands than bytes. -/
def runScript (node text : Bytes) : Outcome := run node text.length false text

/-! Reading the commands -/

theorem afterLiteral_append (literal text : Bytes) :
    afterLiteral literal (literal ++ text) = some text := by
  rw [afterLiteral, if_pos (List.prefix_append _ _), List.drop_left]

theorem afterLiteral_apart {literal other : Bytes} {n : Nat}
    (h : literal.take n ≠ other.take n) (hliteral : n ≤ literal.length) (hother : n ≤ other.length)
    (rest : Bytes) : afterLiteral literal (other ++ rest) = none := by
  refine if_neg fun hstarts => h ?_
  obtain ⟨tail, htail⟩ := hstarts
  rw [← List.take_append_of_le_length hliteral, htail, List.take_append_of_le_length hother]

theorem quotedWord_append {word : Bytes} (h : apostrophe ∉ word) (rest : Bytes) :
    quotedWord (apostrophe :: (word ++ apostrophe :: rest)) = some (word, rest) := by
  have hsplit : strSplitAt apostrophe (word ++ apostrophe :: rest) = (word, some rest) :=
    strSplitAt_some.mpr ⟨rfl, h⟩
  rw [quotedWord, if_pos rfl, hsplit]
  rfl

/-- A command that begins with none of the single bytes. -/
theorem readCommand_literal {c : UInt8} {literal : Bytes} (hhead : literal.head? = some c)
    (hfeed : c ≠ lineFeed) (hhash : c ≠ hash) (rest : Bytes) :
    readCommand (literal ++ rest) =
      match (afterLiteral nodeTest (literal ++ rest)).bind quotedWord with
      | some (word, rest) =>
        match afterLiteral andExit rest with
        | some rest => some (.exitIfNode word, rest)
        | none => (afterLiteral andExclude rest).map (.excludeIfNode word, ·)
      | none =>
        match afterLiteral clearExcluded (literal ++ rest) with
        | some rest => some (.clear, rest)
        | none => (afterLiteral ifExcluded (literal ++ rest)).map fun body =>
            (.exitIfExcluded, afterIf body) := by
  have hfirst : (literal ++ rest).head? = some c := by
    rw [List.head?_append, hhead]
    rfl
  rw [readCommand, hfirst, if_neg fun h => hfeed (Option.some.inj h),
    if_neg fun h => hhash (Option.some.inj h)]

theorem readCommand_blank (text : Bytes) :
    readCommand (lineFeed :: text) = some (.skip, text) := if_pos rfl

theorem readCommand_comment {line : Bytes} (h : lineFeed ∉ line) (rest : Bytes) :
    readCommand (hash :: (line ++ lineFeed :: rest)) = some (.skip, rest) := by
  have hsplit : strSplitAt lineFeed (hash :: (line ++ lineFeed :: rest)) =
      (hash :: line, some rest) :=
    strSplitAt_some.mpr ⟨rfl, by simp [h]; decide⟩
  rw [readCommand, hsplit]
  rfl

theorem readCommand_test {word : Bytes} (h : apostrophe ∉ word) (rest : Bytes) :
    readCommand (nodeTest ++ apostrophe :: (word ++ apostrophe :: rest)) =
      match afterLiteral andExit rest with
      | some rest => some (.exitIfNode word, rest)
      | none => (afterLiteral andExclude rest).map (.excludeIfNode word, ·) := by
  rw [readCommand_literal (show nodeTest.head? = some 91 by decide) (by decide) (by decide),
    afterLiteral_append, Option.bind_some, quotedWord_append h]

theorem readCommand_exit {word : Bytes} (h : apostrophe ∉ word) (rest : Bytes) :
    readCommand (nodeTest ++ apostrophe :: (word ++ apostrophe :: (andExit ++ rest))) =
      some (.exitIfNode word, rest) := by
  rw [readCommand_test h, afterLiteral_append]

theorem readCommand_exclude {word : Bytes} (h : apostrophe ∉ word) (rest : Bytes) :
    readCommand (nodeTest ++ apostrophe :: (word ++ apostrophe :: (andExclude ++ rest))) =
      some (.excludeIfNode word, rest) := by
  have hexit : afterLiteral andExit (andExclude ++ rest) = none :=
    afterLiteral_apart (n := 9) (by decide) (by decide) (by decide) rest
  rw [readCommand_test h, hexit, afterLiteral_append]
  rfl

theorem readCommand_clear (rest : Bytes) :
    readCommand (clearExcluded ++ rest) = some (.clear, rest) := by
  have htest : afterLiteral nodeTest (clearExcluded ++ rest) = none :=
    afterLiteral_apart (n := 1) (by decide) (by decide) (by decide) rest
  rw [readCommand_literal (show clearExcluded.head? = some 101 by decide) (by decide) (by decide),
    htest, afterLiteral_append]
  rfl

theorem readCommand_ifExcluded (body : Bytes) :
    readCommand (ifExcluded ++ body) = some (.exitIfExcluded, afterIf body) := by
  have htest : afterLiteral nodeTest (ifExcluded ++ body) = none :=
    afterLiteral_apart (n := 1) (by decide) (by decide) (by decide) body
  have hclear : afterLiteral clearExcluded (ifExcluded ++ body) = none :=
    afterLiteral_apart (n := 1) (by decide) (by decide) (by decide) body
  rw [readCommand_literal (show ifExcluded.head? = some 105 by decide) (by decide) (by decide),
    htest, Option.bind_none, hclear, afterLiteral_append]
  rfl

/-! The exclude block as text -/

theorem not_mem_loggerHead (up : Bool) : percent ∉ loggerHead up ∧ lineFeed ∉ loggerHead up := by
  cases up <;> decide

theorem logger_eq (libc : CLibrary) (up : Bool) (kind suffix : Bytes) :
    logger libc up kind suffix =
      some (loggerHead up ++ (kind ++ (loggerMiddle ++ (suffix ++ loggerTail)))) := by
  have hstr : ∀ (s msg : Bytes) (args : List FormatArg),
      formatted libc (ascii "%s" ++ msg) none (.str s :: args) =
        (formatted libc msg none args).map (s ++ ·) := fun _ _ _ => rfl
  rw [logger, loggerFormat, List.append_assoc, List.append_assoc, List.append_assoc,
    formatted_append (not_mem_loggerHead up).1, hstr,
    formatted_append (by decide), hstr, formatted_literal (by decide)]
  rfl

def excludeTest (word : Bytes) : Bytes :=
  nodeTest ++ apostrophe :: (word ++ apostrophe :: andExclude)

theorem excludeTest_eq (libc : CLibrary) (word : Bytes) :
    concatF libc (ascii "[ \"$NODE\" = \x27%s\x27 ] && excluded=1\n") word =
      some (excludeTest word) := by
  have hformat : ascii "[ \"$NODE\" = \x27%s\x27 ] && excluded=1\n" =
      (nodeTest ++ [apostrophe]) ++ ascii "%s" ++ (apostrophe :: andExclude) := by
    decide
  have htext : concatF libc ((nodeTest ++ [apostrophe]) ++ ascii "%s" ++
      (apostrophe :: andExclude)) word =
        some ((nodeTest ++ [apostrophe]) ++ word ++ (apostrophe :: andExclude)) :=
    formatted_str (by decide) (by decide)
  rw [hformat, htext, excludeTest]
  simp

/-- The line of the logger in the condition. -/
def excludedLog (up : Bool) : Bytes :=
  loggerHead up ++ (ascii "ignore" ++ (loggerMiddle ++ (ascii " (excluded)" ++
    ascii "\" 2>/dev/null")))

def localLine : Bytes := ascii "[ -x \"$0.local\" ] && \"$0.local\" \"$@\""

/-- The body of the condition: what it logs, the local script and the exit. -/
def excludedBody (up : Bool) : Bytes :=
  ascii "\t" ++ excludedLog up ++ (lineFeed :: (ascii "\t" ++ localLine)) ++
    (lineFeed :: (ascii "\t" ++ ascii "exit 0"))

theorem excludeFoot_eq (libc : CLibrary) (up : Bool) :
    concatAll [some (ascii "if [ -n \"$excluded\" ] ; then\n"), some (ascii "\t"),
        logger libc up (ascii "ignore") (ascii " (excluded)"),
        some (ascii "\t" ++ localScript), some (ascii "\texit 0\n"), some (ascii "fi\n\n")] =
      some (ifExcluded ++ (excludedBody up ++ (endIf ++ [lineFeed]))) := by
  have htail : loggerTail = ascii "\" 2>/dev/null" ++ [lineFeed] := by decide
  have hlocal : localScript = localLine ++ [lineFeed] := by decide
  have hexit : ascii "\texit 0\n" ++ ascii "fi\n\n" =
      ascii "\t" ++ ascii "exit 0" ++ (endIf ++ [lineFeed]) := by decide
  rw [logger_eq, htail, hlocal]
  simp only [concatAll, Option.bind_some, Option.map_some, List.append_nil, hexit, excludedBody,
    excludedLog, List.append_assoc, List.cons_append, List.nil_append]
  rfl

theorem afterIf_append {text : Bytes} (h : lineFeed ∉ text) (rest : Bytes) :
    afterIf (text ++ rest) = afterIf rest := by
  induction text with
  | nil => rfl
  | cons c text ih =>
    have hc : c ≠ lineFeed := fun heq => h (by simp [heq])
    have hstarts : ¬ endIf <+: c :: (text ++ rest) := fun hstarts =>
      hc (List.cons_prefix_cons.mp hstarts).1.symm
    rw [List.cons_append, afterIf, if_neg hstarts]
    exact ih fun hmem => h (by simp [hmem])

/-- A line that begins with a tabulator does not end the condition. -/
theorem afterIf_line (rest : Bytes) :
    afterIf (lineFeed :: (ascii "\t" ++ rest)) = afterIf (ascii "\t" ++ rest) := by
  refine if_neg fun hstarts => ?_
  obtain ⟨-, hline⟩ := List.cons_prefix_cons.mp hstarts
  exact absurd (List.cons_prefix_cons.mp hline).1 (by decide)

theorem afterIf_endIf (rest : Bytes) : afterIf (endIf ++ rest) = rest :=
  (if_pos (List.prefix_append endIf rest)).trans (List.drop_left' rfl)

theorem afterIf_excludedBody (up : Bool) (rest : Bytes) :
    afterIf (excludedBody up ++ (endIf ++ rest)) = rest := by
  have hlog : lineFeed ∉ ascii "\t" ++ excludedLog up := by
    simp only [excludedLog, List.mem_append, not_or]
    exact ⟨by decide, (not_mem_loggerHead up).2, by decide, by decide, by decide, by decide⟩
  have hlocal : lineFeed ∉ ascii "\t" ++ localLine := by decide
  have hexit : lineFeed ∉ ascii "\t" ++ ascii "exit 0" := by decide
  simp only [excludedBody, List.append_assoc, List.cons_append]
  rw [← List.append_assoc (ascii "\t") (excludedLog up), afterIf_append hlog, afterIf_line,
    ← List.append_assoc (ascii "\t") localLine, afterIf_append hlocal, afterIf_line,
    ← List.append_assoc (ascii "\t") (ascii "exit 0"), afterIf_append hexit, afterIf_endIf]

/-! Running the commands -/

/-- With a step for every byte the text is left in the outcome. -/
def Runs (node : Bytes) (excluded : Bool) (text : Bytes) (outcome : Outcome) : Prop :=
  ∀ fuel, text.length ≤ fuel → run node fuel excluded text = outcome

theorem runs_step {node text rest : Bytes} {excluded : Bool} {command : Command}
    {outcome : Outcome} (hread : readCommand text = some (command, rest))
    (hshorter : rest.length < text.length)
    (h : ∀ fuel, rest.length ≤ fuel →
      (match command with
        | .skip => run node fuel excluded rest
        | .exitIfNode word => if node = word then .ownNode else run node fuel excluded rest
        | .excludeIfNode word => run node fuel (excluded || node = word) rest
        | .clear => run node fuel false rest
        | .exitIfExcluded => if excluded then .excluded else run node fuel excluded rest) =
          outcome) :
    Runs node excluded text outcome := by
  intro fuel hfuel
  obtain ⟨fuel, rfl⟩ := Nat.exists_eq_succ_of_ne_zero (show fuel ≠ 0 by omega)
  rw [run, hread, ← h fuel (by omega)]
  cases command <;> rfl

variable {node : Bytes} {excluded : Bool} {outcome : Outcome} {rest : Bytes}

theorem runs_blank (h : Runs node excluded rest outcome) :
    Runs node excluded (lineFeed :: rest) outcome :=
  runs_step (readCommand_blank rest) (Nat.lt_succ_self _) h

theorem runs_comment {line : Bytes} (hline : lineFeed ∉ line)
    (h : Runs node excluded rest outcome) :
    Runs node excluded (hash :: (line ++ lineFeed :: rest)) outcome :=
  runs_step (readCommand_comment hline rest) (by simp; omega) h

theorem runs_exit {word : Bytes} (hword : apostrophe ∉ word) (hnode : node ≠ word)
    (h : Runs node excluded rest outcome) :
    Runs node excluded (nodeTest ++ apostrophe :: (word ++ apostrophe :: (andExit ++ rest)))
      outcome := by
  refine runs_step (readCommand_exit hword rest) (by simp; omega) fun fuel hfuel => ?_
  dsimp only
  rw [if_neg hnode, h fuel hfuel]

theorem runs_exclude {word : Bytes} (hword : apostrophe ∉ word)
    (h : Runs node (excluded || node = word) rest outcome) :
    Runs node excluded (excludeTest word ++ rest) outcome := by
  have hread : readCommand (excludeTest word ++ rest) = some (.excludeIfNode word, rest) := by
    rw [excludeTest, List.append_assoc, List.cons_append, List.append_assoc, List.cons_append]
    exact readCommand_exclude hword rest
  exact runs_step hread (by simp [excludeTest]; omega) h

theorem runs_clear (h : Runs node false rest outcome) :
    Runs node excluded (clearExcluded ++ rest) outcome :=
  runs_step (readCommand_clear rest) (by simp [clearExcluded, ascii]; omega) h

theorem runs_ifExcluded (up : Bool) (h : excluded = false → Runs node false rest outcome)
    (hexcluded : excluded = true → outcome = .excluded) :
    Runs node excluded (ifExcluded ++ (excludedBody up ++ (endIf ++ rest))) outcome := by
  have hread := readCommand_ifExcluded (excludedBody up ++ (endIf ++ rest))
  rw [afterIf_excludedBody] at hread
  refine runs_step hread (by simp [ifExcluded, ascii]; omega) fun fuel hfuel => ?_
  cases excluded with
  | true => exact (hexcluded rfl).symm
  | false => exact h rfl fuel hfuel

theorem runs_goesOn {text : Bytes} (hread : readCommand text = none) :
    Runs node excluded text (.goesOn text) := by
  intro fuel hfuel
  cases fuel with
  | zero => rfl
  | succ fuel => rw [run, hread]

theorem runs_excludeTests {words : List Bytes} (hwords : ∀ word ∈ words, apostrophe ∉ word) :
    ∀ {excluded : Bool}, Runs node (excluded || words.contains node) rest outcome →
      Runs node excluded (words.flatMap excludeTest ++ rest) outcome := by
  induction words with
  | nil =>
    intro excluded h
    simpa using h
  | cons word words ih =>
    intro excluded h
    obtain ⟨hword, hlater⟩ := List.forall_mem_cons.mp hwords
    rw [List.flatMap_cons, List.append_assoc]
    refine runs_exclude hword (ih hlater ?_)
    rw [Bool.or_assoc]
    simpa using h

/-! The script -/

def excludedWords (exclude : Option (List SettingsListEntry)) : List Bytes :=
  (exclude.getD []).filterMap fun
    | .integer _ => none
    | .string s => some s

def excludeText (up : Bool) (words : List Bytes) : Bytes :=
  if words = [] then []
  else lineFeed :: (clearExcluded ++ (words.flatMap excludeTest ++
    (ifExcluded ++ (excludedBody up ++ (endIf ++ [lineFeed])))))

theorem excludeLoop_eq (libc : CLibrary) (list : List SettingsListEntry) :
    ∀ haveexcludes, excludeLoop libc haveexcludes list =
      (some ((if haveexcludes ∨ excludedWords (some list) = [] then []
          else lineFeed :: clearExcluded) ++ (excludedWords (some list)).flatMap excludeTest),
        haveexcludes || !(excludedWords (some list)).isEmpty) := by
  induction list with
  | nil =>
    intro haveexcludes
    simp [excludeLoop, excludedWords]
  | cons entry list ih =>
    intro haveexcludes
    cases entry with
    | integer i =>
      rw [excludeLoop, ih]
      rfl
    | string s =>
      have hwords : excludedWords (some (.string s :: list)) =
          s :: excludedWords (some list) := rfl
      have hclear : ascii "\n" ++ ascii "excluded=\"\"\n" = lineFeed :: clearExcluded := rfl
      rw [excludeLoop, ih, excludeTest_eq, hclear, hwords]
      cases haveexcludes <;> simp [concatAll]

theorem excludeBlock_eq (libc : CLibrary) (config : Config) (up : Bool) :
    excludeBlock libc config up = some (excludeText up (excludedWords config.exclude)) := by
  unfold excludeBlock excludeText
  cases config.exclude with
  | none => rfl
  | some list =>
    dsimp only
    rw [excludeLoop_eq, excludeFoot_eq]
    cases excludedWords (some list) <;> simp [concatAll]

def scriptStart : Bytes :=
  ascii "#!/bin/sh\n" ++ (comment ++ ascii "this is an autogenerated file - do not edit!\n\n")

def ownNodeTest (peerid : Bytes) : Bytes :=
  nodeTest ++ apostrophe :: (peerid ++ apostrophe :: (andExit ++ [lineFeed]))

theorem ownNodeLine_eq (libc : CLibrary) (config : Config) :
    ownNodeLine libc config = some (ownNodeTest config.peerid) := by
  have hformat : ascii "[ \"$NODE\" = \x27%s\x27 ] && exit 0\n\n" =
      (nodeTest ++ [apostrophe]) ++ ascii "%s" ++ (apostrophe :: (andExit ++ [lineFeed])) := by
    decide
  have htext : concatF libc ((nodeTest ++ [apostrophe]) ++ ascii "%s" ++
      (apostrophe :: (andExit ++ [lineFeed]))) config.peerid = some ((nodeTest ++ [apostrophe]) ++
        config.peerid ++ (apostrophe :: (andExit ++ [lineFeed]))) :=
    formatted_str (by decide) (by decide)
  rw [ownNodeLine, hformat, htext, ownNodeTest]
  simp

theorem routeBlocks_start {libc : CLibrary} {config : Config} {up : Bool} {text : Bytes}
    (h : routeBlocks libc config up = some text) : ∃ rest, text = ascii "if echo" ++ rest := by
  have hecho : ascii "if echo \"$SUBNET\" | grep -q -E \x27" =
      ascii "if echo" ++ ascii " \"$SUBNET\" | grep -q -E \x27" := by decide
  obtain ⟨block, rest, hblock, -, rfl⟩ := concatAll_cons_eq_some.mp h
  obtain ⟨start, blockRest, hstart, -, rfl⟩ := concatAll_cons_eq_some.mp hblock
  obtain rfl := Option.some.inj hstart
  rw [hecho]
  simp only [List.append_assoc]
  exact ⟨_, rfl⟩

theorem tincWriteSubnetupdown_eq {libc : CLibrary} {config : Config} {up : Bool}
    (hdynamic : config.useDynamicRoutes = true) {file : Written}
    (h : tincWriteSubnetupdown libc config up = some (.generated file)) :
    ∃ routes, routeBlocks libc config up = some routes ∧
      file.contents = scriptStart ++ (ownNodeTest config.peerid ++
        (excludeText up (excludedWords config.exclude) ++ routes)) := by
  rw [tincWriteSubnetupdown, if_neg (not_not.mpr hdynamic), ownNodeLine_eq, excludeBlock_eq] at h
  obtain ⟨contents, hcontents, hfile⟩ := Option.map_eq_some_iff.mp h
  cases hroutes : routeBlocks libc config up with
  | none =>
    rw [hroutes] at hcontents
    cases hcontents
  | some routes =>
    rw [hroutes] at hcontents
    obtain rfl := SubnetFile.generated.inj hfile
    refine ⟨routes, rfl, ?_⟩
    rw [← Option.some.inj hcontents]
    simp only [scriptStart, List.append_assoc, List.append_nil]

theorem isSome_subnetBlock {libc : CLibrary} {config : Config} {up : Bool} {family : Family}
    (h : hasRoutes config up family = true →
      (concatF libc ((routecmd config up family).getD []) (ascii "$SUBNET")).isSome = true) :
    (subnetBlock libc config up family).isSome = true := by
  refine isSome_concatAll.mpr ?_
  simp only [List.forall_mem_cons, List.not_mem_nil, false_imp_iff, implies_true, and_true,
    logger_eq, Option.isSome_some, true_and]
  split
  · rename_i hroutes
    refine isSome_concatAll.mpr ?_
    simpa using h hroutes
  · rfl

/-- The script is written when the route commands can be formatted. -/
theorem tincWriteSubnetupdown_written {libc : CLibrary} {config : Config} {up : Bool}
    (hdynamic : config.useDynamicRoutes = true)
    (h : ∀ family, hasRoutes config up family = true →
      (concatF libc ((routecmd config up family).getD []) (ascii "$SUBNET")).isSome = true) :
    ∃ file, tincWriteSubnetupdown libc config up = some (.generated file) := by
  have hroutes : (routeBlocks libc config up).isSome = true := by
    refine isSome_concatAll.mpr ?_
    simp only [List.forall_mem_cons, List.not_mem_nil, false_imp_iff, implies_true, and_true,
      logger_eq, Option.isSome_some]
    exact ⟨isSome_subnetBlock (h .inet), isSome_subnetBlock (h .inet6)⟩
  obtain ⟨routes, hroutes⟩ := Option.isSome_iff_exists.mp hroutes
  rw [tincWriteSubnetupdown, if_neg (not_not.mpr hdynamic), ownNodeLine_eq, excludeBlock_eq,
    hroutes]
  exact ⟨_, rfl⟩

theorem runs_routes {libc : CLibrary} {config : Config} {up : Bool} {text : Bytes}
    (h : routeBlocks libc config up = some text) : Runs node excluded text (.goesOn text) := by
  obtain ⟨rest, rfl⟩ := routeBlocks_start h
  have htest : afterLiteral nodeTest (ascii "if echo" ++ rest) = none :=
    afterLiteral_apart (n := 1) (by decide) (by decide) (by decide) rest
  have hclear : afterLiteral clearExcluded (ascii "if echo" ++ rest) = none :=
    afterLiteral_apart (n := 1) (by decide) (by decide) (by decide) rest
  have hif : afterLiteral ifExcluded (ascii "if echo" ++ rest) = none :=
    afterLiteral_apart (n := 4) (by decide) (by decide) (by decide) rest
  refine runs_goesOn ?_
  rw [readCommand_literal (show (ascii "if echo").head? = some 105 by decide) (by decide)
    (by decide), htest, Option.bind_none, hclear, hif]
  rfl

theorem runs_excludeText (up : Bool) {words : List Bytes}
    (hwords : ∀ word ∈ words, apostrophe ∉ word)
    (hrest : Runs node false rest (.goesOn rest)) :
    Runs node false (excludeText up words ++ rest)
      (if node ∈ words then .excluded else .goesOn rest) := by
  unfold excludeText
  by_cases hnone : words = []
  · rw [if_pos hnone, if_neg (by simp [hnone])]
    exact hrest
  · rw [if_neg hnone]
    simp only [List.cons_append, List.append_assoc]
    refine runs_blank (runs_clear (runs_excludeTests hwords (runs_ifExcluded up ?_ ?_)))
    · intro hnot
      have hnode : node ∉ words := by simpa using hnot
      rw [if_neg hnode]
      exact runs_blank hrest
    · intro hmem
      have hnode : node ∈ words := by simpa using hmem
      exact if_pos hnode

theorem runs_scriptStart {peerid : Bytes} (hpeerid : apostrophe ∉ peerid) (hnode : node ≠ peerid)
    (h : Runs node false rest outcome) :
    Runs node false (scriptStart ++ (ownNodeTest peerid ++ rest)) outcome := by
  have hstart : scriptStart = (hash :: (ascii "!/bin/sh" ++ [lineFeed])) ++
      ((hash :: (ascii " this is an autogenerated file - do not edit!" ++ [lineFeed])) ++
        [lineFeed]) := by
    decide
  rw [hstart, ownNodeTest]
  simp only [List.cons_append, List.append_assoc, List.nil_append]
  exact runs_comment (by decide) (runs_comment (by decide)
    (runs_blank (runs_exit hpeerid hnode (runs_blank h))))

/-! Both ways to exclude a node -/

theorem mem_excludedWords {exclude : Option (List SettingsListEntry)} {word : Bytes} :
    word ∈ excludedWords exclude ↔ SettingsListEntry.string word ∈ exclude.getD [] := by
  rw [excludedWords, List.mem_filterMap]
  constructor
  · rintro ⟨entry, hentry, hword⟩
    cases entry with
    | integer i => cases hword
    | string s => exact Option.some.inj hword ▸ hentry
  · exact fun h => ⟨_, h, rfl⟩

theorem tincCheckIfExcluded_iff {config : Config} {name : Bytes} :
    tincCheckIfExcluded config name = true ↔
      ∃ word ∈ excludedWords config.exclude, strcasecmp word name = true := by
  simp only [mem_excludedWords]
  unfold tincCheckIfExcluded
  cases config.exclude with
  | none => simp
  | some list =>
    dsimp only [Option.getD_some]
    rw [List.any_eq_true]
    constructor
    · rintro ⟨entry, hentry, hname⟩
      cases entry with
      | integer i => cases hname
      | string s => exact ⟨s, hentry, hname⟩
    · rintro ⟨word, hword, hname⟩
      exact ⟨.string word, hword, hname⟩

theorem strcasecmp_self (s : Bytes) : strcasecmp s s = true := beq_self_eq_true _

/-- The script leaves a node out by its name as it is written, the list by its name in any
case: they agree if and only if a node with a name of the list in some case is also in the
list as it is written. -/
theorem excludes_agree_iff (libc : CLibrary) (config : Config) (up : Bool) (file : Written)
    (name : Bytes) (hdynamic : config.useDynamicRoutes = true)
    (hfile : tincWriteSubnetupdown libc config up = some (.generated file))
    (hquote : ∀ s, SettingsListEntry.string s ∈ config.exclude.getD [] → apostrophe ∉ s)
    (hname : name ≠ config.peerid) :
    ∃ tests routes, routeBlocks libc config up = some routes ∧
      file.contents = scriptStart ++ (ownNodeTest config.peerid ++ (tests ++ routes)) ∧
      (apostrophe ∉ config.peerid →
        runScript name file.contents = runScript name (tests ++ routes)) ∧
      ((runScript name (tests ++ routes) = .excluded ↔ tincCheckIfExcluded config name = true) ↔
        ((∃ s, SettingsListEntry.string s ∈ config.exclude.getD [] ∧ strcasecmp s name = true) →
          SettingsListEntry.string name ∈ config.exclude.getD [])) := by
  obtain ⟨routes, hroutes, hcontents⟩ := tincWriteSubnetupdown_eq hdynamic hfile
  have hwords : ∀ word ∈ excludedWords config.exclude, apostrophe ∉ word :=
    fun word hword => hquote word (mem_excludedWords.mp hword)
  have hruns : Runs name false (excludeText up (excludedWords config.exclude) ++ routes)
      (if name ∈ excludedWords config.exclude then .excluded else .goesOn routes) :=
    runs_excludeText up hwords (runs_routes hroutes)
  have htests := hruns _ (Nat.le_refl _)
  refine ⟨_, routes, hroutes, hcontents, fun hpeerid => ?_, ?_⟩
  · rw [hcontents]
    exact (runs_scriptStart hpeerid hname hruns _ (Nat.le_refl _)).trans htests.symm
  · have hexcluded : runScript name (excludeText up (excludedWords config.exclude) ++ routes) =
        .excluded ↔ SettingsListEntry.string name ∈ config.exclude.getD [] := by
      rw [runScript, htests, ← mem_excludedWords]
      split <;> simp [*]
    rw [hexcluded, tincCheckIfExcluded_iff]
    simp only [mem_excludedWords]
    constructor
    · exact fun h hsome => h.mpr hsome
    · exact fun h => ⟨fun hmem => ⟨name, hmem, strcasecmp_self name⟩, h⟩

/-- A list with a name in capitals. -/
def capitalConfig : Config where
  peerid := ascii "office"
  networkname := ascii "chaos"
  basePath := ascii "/etc/tinc/chaos"
  vpnIp := some (ascii "172.31.0.1")
  routeadd := some (ascii "ip route add %s dev vpn")
  exclude := some [.string (ascii "LAB")]
  useDynamicRoutes := true

theorem capitalConfig_written :
    ∃ file, tincWriteSubnetupdown plainLibrary capitalConfig true = some (.generated file) :=
  tincWriteSubnetupdown_written rfl (by rintro (_ | _) <;> decide)

theorem quoteless_capitalConfig :
    ∀ s, SettingsListEntry.string s ∈ capitalConfig.exclude.getD [] → apostrophe ∉ s := by
  rintro s hs
  rw [capitalConfig, Option.getD_some, List.mem_singleton] at hs
  cases hs
  decide

theorem excludes_differ :
    ∃ file, tincWriteSubnetupdown plainLibrary capitalConfig true = some (.generated file) ∧
      ¬ (runScript (ascii "lab") file.contents = .excluded ↔
        tincCheckIfExcluded capitalConfig (ascii "lab") = true) := by
  obtain ⟨file, hfile⟩ := capitalConfig_written
  refine ⟨file, hfile, fun h => ?_⟩
  obtain ⟨routes, hroutes, hcontents⟩ := tincWriteSubnetupdown_eq rfl hfile
  have hwords : ∀ word ∈ excludedWords capitalConfig.exclude, apostrophe ∉ word := by decide
  have hruns : Runs (ascii "lab") false file.contents (.goesOn routes) := by
    rw [hcontents]
    exact runs_scriptStart (by decide) (by decide)
      (runs_excludeText true hwords (runs_routes hroutes))
  have hexcluded := h.mpr (by decide)
  rw [runScript, hruns _ (Nat.le_refl _)] at hexcluded
  cases hexcluded

theorem excludes_agree_capitals :
    ∃ file, tincWriteSubnetupdown plainLibrary capitalConfig true = some (.generated file) ∧
      ∃ tests routes, routeBlocks plainLibrary capitalConfig true = some routes ∧
        file.contents = scriptStart ++ (ownNodeTest capitalConfig.peerid ++ (tests ++ routes)) ∧
        (runScript (ascii "LAB") (tests ++ routes) = .excluded ↔
          tincCheckIfExcluded capitalConfig (ascii "LAB") = true) := by
  obtain ⟨file, hfile⟩ := capitalConfig_written
  obtain ⟨tests, routes, hroutes, hcontents, -, hagree⟩ :=
    excludes_agree_iff plainLibrary capitalConfig true file (ascii "LAB") rfl hfile
      quoteless_capitalConfig (by decide)
  exact ⟨file, hfile, tests, routes, hroutes, hcontents, hagree.mpr fun _ => by simp [capitalConfig]⟩

end ChaosVpn.ExcludedNodes
