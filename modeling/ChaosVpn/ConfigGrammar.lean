import ChaosVpn.ConfigLexer
import ChaosVpn.Settings
import ChaosVpn.Library.Loops

/-! The grammar of the configuration file, from cvconf.y, as the states that a reader of the
tokens can be in. A string is put together when it is complete, from its end, and a setting is
stored before its separator is read. An error ends the program. -/

namespace ChaosVpn.ConfigGrammar
open CStrings ConfigLexer Settings

/-- The fields of struct config that settings are stored in. A string that is NULL is `none`. -/
structure Values where
  strings : StringField → Option Bytes
  ints : IntField → Int
  bools : BoolField → Bool
  lists : ListField → Option (List SettingsListEntry)

def Values.setString (v : Values) (field : StringField) (s : Bytes) : Values :=
  { v with strings := Function.update v.strings field (some s) }

def Values.setInt (v : Values) (field : IntField) (i : Int) : Values :=
  { v with ints := Function.update v.ints field i }

def Values.setBool (v : Values) (field : BoolField) (b : Bool) : Values :=
  { v with bools := Function.update v.bools field b }

def Values.setList (v : Values) (field : ListField) (entries : List SettingsListEntry) : Values :=
  { v with lists := Function.update v.lists field (some entries) }

inductive StringPart
  | text (s : Bytes)
  | string (field : StringField)
  | int (field : IntField)

/-- The value of a string; nothing when a variable in it is not initialized. -/
def catenated (v : Values) : List StringPart → Option Bytes
  | [] => some []
  | .text s :: parts => (catenated v parts).map (s ++ ·)
  | .string field :: parts =>
    match catenated v parts, v.strings field with
    | some rest, some s => some (s ++ rest)
    | _, _ => none
  | .int field :: parts => (catenated v parts).map (decimalInt (v.ints field) ++ ·)

/-- What has been read since the last separator. -/
inductive Parsing
  | config
  | keyword (keyword : Keyword)
  | assigned (keyword : Keyword)
  | string (field : StringField) (parts : List StringPart)
  | list (field : ListField) (entries : List SettingsListEntry)
  | listString (field : ListField) (entries : List SettingsListEntry) (parts : List StringPart)
  | listEntry (field : ListField) (entries : List SettingsListEntry)
  | setting

def shift (v : Values) : Parsing → Token → Option (Parsing × Values)
  | .config, .keyword k => some (.keyword k, v)
  | .keyword k, .assignment => some (.assigned k, v)
  | .assigned (.int field), .intval i => some (.setting, v.setInt field i)
  | .assigned (.bool field), .boolval b => some (.setting, v.setBool field b)
  | .assigned (.bool field), .yesnoval b => some (.setting, v.setBool field b)
  | .assigned (.bool field), .intval i => some (.setting, v.setBool field (i ≠ 0))
  | .assigned (.string field), .stringmarker => some (.string field [], v)
  | .assigned (.list field), .listopen => some (.list field [], v)
  | .string field parts, .keyword (.string other) =>
    some (.string field (parts ++ [.string other]), v)
  | .string field parts, .keyword (.int other) => some (.string field (parts ++ [.int other]), v)
  | .string field parts, .string s => some (.string field (parts ++ [.text s]), v)
  | .string field parts, .stringmarker =>
    (catenated v parts).map fun s => (.setting, v.setString field s)
  | .list field entries, .intval i => some (.listEntry field (entries ++ [.integer i]), v)
  | .list field entries, .stringmarker => some (.listString field entries [], v)
  | .list field entries, .listclose => some (.setting, v.setList field entries)
  | .listString field entries parts, .keyword (.string other) =>
    some (.listString field entries (parts ++ [.string other]), v)
  | .listString field entries parts, .keyword (.int other) =>
    some (.listString field entries (parts ++ [.int other]), v)
  | .listString field entries parts, .string s =>
    some (.listString field entries (parts ++ [.text s]), v)
  | .listString field entries parts, .stringmarker =>
    (catenated v parts).map fun s => (.listEntry field (entries ++ [.string s]), v)
  | .listEntry field entries, .listsep => some (.list field entries, v)
  | .listEntry field entries, .listclose => some (.setting, v.setList field entries)
  | .setting, .separator => some (.config, v)
  | _, _ => none

/-- The scanner and the parser at work on the rest of the file. -/
structure Reading where
  scanner : Scanner
  parsing : Parsing
  values : Values
  text : Bytes

/-- yyparse() returns, or the program ends on an error. -/
inductive Outcome
  | accepted (values : Values)
  | rejected (values : Values)

def advance (m : Reading) : Reading ⊕ Outcome :=
  match m.text with
  | [] =>
    match m.parsing with
    | .config => .inr (.accepted m.values)
    | _ => .inr (.rejected m.values)
  | _ :: _ =>
    match scan m.scanner m.text with
    | (.next, scanner, text) => .inl { m with scanner, text }
    | (.exit, _, _) => .inr (.rejected m.values)
    | (.returns token, scanner, text) =>
      match shift m.values m.parsing token with
      | some (parsing, values) => .inl ⟨scanner, parsing, values, text⟩
      | none => .inr (.rejected m.values)

/-- At the start of a file. -/
def opened (v : Values) (file : Bytes) : Reading := ⟨⟨.initial, .initial⟩, .config, v, file⟩

def Yyparse (v : Values) (file : Bytes) (outcome : Outcome) : Prop :=
  Loops.Returns advance (opened v file) outcome

variable {s s' : Scanner} {p p' : Parsing} {v v' : Values} {text rest : Bytes} {token : Token}
  {outcome : Outcome}

theorem advance_next (hne : text ≠ []) (hscan : scan s text = (.next, s', rest)) :
    advance ⟨s, p, v, text⟩ = .inl ⟨s', p, v, rest⟩ := by
  obtain ⟨c, text, rfl⟩ := List.exists_cons_of_ne_nil hne
  simp only [advance, hscan]

theorem advance_exit (hne : text ≠ []) (hscan : scan s text = (.exit, s', rest)) :
    advance ⟨s, p, v, text⟩ = .inr (.rejected v) := by
  obtain ⟨c, text, rfl⟩ := List.exists_cons_of_ne_nil hne
  simp only [advance, hscan]

theorem advance_token (hne : text ≠ []) (hscan : scan s text = (.returns token, s', rest))
    (hshift : shift v p token = some (p', v')) :
    advance ⟨s, p, v, text⟩ = .inl ⟨s', p', v', rest⟩ := by
  obtain ⟨c, text, rfl⟩ := List.exists_cons_of_ne_nil hne
  simp only [advance, hscan, hshift]

theorem advance_error (hne : text ≠ []) (hscan : scan s text = (.returns token, s', rest))
    (hshift : shift v p token = none) : advance ⟨s, p, v, text⟩ = .inr (.rejected v) := by
  obtain ⟨c, text, rfl⟩ := List.exists_cons_of_ne_nil hne
  simp only [advance, hscan, hshift]

/-- Every match takes something from the text. -/
theorem scan_shorter (s : Scanner) (hne : text ≠ []) : (scan s text).2.2.length < text.length := by
  have hpos := List.length_pos_iff.mpr hne
  cases hselect : LongestMatch.select Rule.pattern (activeRules s.start) text with
  | none =>
    simp only [scan, hselect, List.length_tail]
    omega
  | some best =>
    obtain ⟨n, r⟩ := best
    obtain ⟨-, hn, -⟩ := LongestMatch.select_matches hselect
    simp only [scan, hselect, List.length_drop]
    omega

/-- yyparse() returns or ends the program. -/
theorem yyparse_ends (v : Values) (file : Bytes) : ∃ outcome, Yyparse v file outcome := by
  refine Loops.terminates_of_measure (fun m => m.text.length) (fun _ => True) ?_ trivial
  rintro ⟨s, p, v, text⟩ m - hadvance
  refine ⟨trivial, ?_⟩
  cases text with
  | nil => cases p <;> cases hadvance
  | cons c text =>
    have hshorter := scan_shorter s (List.cons_ne_nil c text)
    simp only [advance] at hadvance
    split at hadvance
    · rename_i hscan
      rw [hscan] at hshorter
      rw [← Sum.inl.inj hadvance]
      exact hshorter
    · cases hadvance
    · rename_i hscan
      rw [hscan] at hshorter
      split at hadvance
      · rw [← Sum.inl.inj hadvance]
        exact hshorter
      · cases hadvance

end ChaosVpn.ConfigGrammar
