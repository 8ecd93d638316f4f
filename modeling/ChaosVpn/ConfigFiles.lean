import ChaosVpn.ConfigTokens

/-! Configuration files as programs. A setting assigns a value, and a string may be made of the
settings in front of it; what the scanner and the parser make of the file is what its settings
do one after the other. -/

namespace ChaosVpn.ConfigFiles
open CStrings ConfigLexer ConfigGrammar ConfigStrings ConfigTokens Settings

/-- How a setting is written. -/
def name (k : Keyword) : Bytes :=
  ((keywords.find? fun keyword => keyword.2 = k).map Prod.fst).getD []

inductive Part
  | text (t : Text)
  | dollar
  | string (field : StringField)
  | int (field : IntField)

def Part.written : Part → Bytes
  | .text t => t.bytes
  | .dollar => [backslash, dollarSign]
  | .string field => name (.string field)
  | .int field => name (.int field)

def Part.meaning : Part → StringPart
  | .text t => .text t.bytes
  | .dollar => .text [dollarSign]
  | .string field => .string field
  | .int field => .int field

def writtenParts (ps : List Part) : Bytes := ps.flatMap Part.written

/-- The texts are quiet and apart, and no name goes on with a 6 where this makes another one. -/
inductive Readable : List Part → Prop
  | nil : Readable []
  | text (t : Text) {ps : List Part} :
    Quiet t.bytes → (∀ t' qs, ps ≠ .text t' :: qs) → Readable ps → Readable (.text t :: ps)
  | dollar {ps : List Part} : Readable ps → Readable (.dollar :: ps)
  | string (field : StringField) {ps : List Part} :
    ((writtenParts ps).head? = some six →
      name (.string field) ++ [six] ∉ keywords.map Prod.fst) →
    Readable ps → Readable (.string field :: ps)
  | int (field : IntField) {ps : List Part} : Readable ps → Readable (.int field :: ps)

structure StringText where
  parts : List Part
  readable : Readable parts

def StringText.written (t : StringText) : Bytes := quote :: (writtenParts t.parts ++ [quote])

/-- Nothing where a string in it has no value yet. -/
def StringText.value (v : Values) (t : StringText) : Option Bytes :=
  catenated v (t.parts.map Part.meaning)

inductive Entry
  | integer (n : Numeral)
  | string (t : StringText)

def Entry.written : Entry → Bytes
  | .integer n => n.digits
  | .string t => t.written

def Entry.value (v : Values) : Entry → Option SettingsListEntry
  | .integer n => some (.integer n.value)
  | .string t => (t.value v).map .string

/-- A list, with the entries that a comma stands behind. -/
structure ListText where
  front : List (Gap × Entry × Gap)
  last : Option (Gap × Entry)
  closing : Gap

def ListText.entries (l : ListText) : List Entry :=
  l.front.map (·.2.1) ++ (l.last.map Prod.snd).toList

def withComma (e : Gap × Entry × Gap) : Bytes :=
  e.1.written ++ (e.2.1.written ++ (e.2.2.written ++ [comma]))

def lastEntry : Option (Gap × Entry) → Bytes
  | none => []
  | some e => e.1.written ++ e.2.written

def ListText.written (l : ListText) : Bytes :=
  leftParen ::
    (l.front.flatMap withComma ++ (lastEntry l.last ++ (l.closing.written ++ [rightParen])))

inductive Assignment
  | string (field : StringField) (t : StringText)
  | int (field : IntField) (n : Numeral)
  | boolWord (field : BoolField) (w : Word)
  | boolInt (field : BoolField) (n : Numeral)
  | list (field : ListField) (l : ListText)

def Assignment.keyword : Assignment → Keyword
  | .string field _ => .string field
  | .int field _ => .int field
  | .boolWord field _ | .boolInt field _ => .bool field
  | .list field _ => .list field

def Assignment.written : Assignment → Bytes
  | .string _ t => t.written
  | .int _ n | .boolInt _ n => n.digits
  | .boolWord _ w => w.text
  | .list _ l => l.written

def Assignment.store (v : Values) : Assignment → Option Values
  | .string field t => (t.value v).map (v.setString field)
  | .int field n => some (v.setInt field n.value)
  | .boolWord field w => some (v.setBool field w.value)
  | .boolInt field n => some (v.setBool field (n.value ≠ 0))
  | .list field l => (l.entries.mapM (Entry.value v)).map (v.setList field)

structure Setting where
  before : Gap
  left : Bytes
  right : Bytes
  assignment : Assignment
  after : Gap
  leftBlanks : ∀ c ∈ left, isBlank c = true
  rightBlanks : ∀ c ∈ right, isBlank c = true

def Setting.written (s : Setting) : Bytes :=
  s.before.written ++ (name s.assignment.keyword ++ ((s.left ++ equals :: s.right) ++
    (s.assignment.written ++ (s.after.written ++ [semicolon]))))

structure ConfigFile where
  settings : List Setting
  final : Gap

def ConfigFile.written (f : ConfigFile) : Bytes :=
  f.settings.flatMap Setting.written ++ f.final.written

/-- One setting after the other. -/
def meaning (v : Values) : List Setting → Outcome
  | [] => .accepted v
  | s :: settings =>
    match s.assignment.store v with
    | some w => meaning w settings
    | none => .rejected v

/-! Names -/

theorem name_mem (k : Keyword) : (name k, k) ∈ keywords := by
  cases k with
  | string field => cases field <;> decide
  | int field => cases field <;> decide
  | bool field => cases field <;> decide
  | list field => cases field <;> decide

theorem name_ne_nil (k : Keyword) : name k ≠ [] := keyword_ne_nil (name_mem k)

theorem names_shape : ∀ a ∈ keywords, a.1.tail ≠ [] ∧ a.1.tail.head? ≠ some 93 ∧
    (isList a.2 = true ∨ a.1.head? = some dollarSign) := by
  decide

theorem name_sign (k : Keyword) : ∃ c letters, name k = c :: letters ∧ letters ≠ [] ∧
    letters.head? ≠ some 93 ∧ (c = dollarSign ∨ c = atSign) ∧
    (isList k = true ∨ c = dollarSign) := by
  obtain ⟨c, letters, hname⟩ := List.exists_cons_of_ne_nil (name_ne_nil k)
  obtain ⟨hletters, hbracket, hlist⟩ := names_shape _ (name_mem k)
  have hsign := keywords_head _ (name_mem k)
  simp only [hname, List.tail_cons, List.head?_cons, Option.some.injEq] at hletters hbracket hlist hsign
  exact ⟨c, letters, hname, hletters, hbracket, hsign, hlist⟩

variable {v : Values} {caller : StartCondition} {rest : Bytes} {ps : List Part}

/-! Strings -/

theorem stop_writtenParts (h : ∀ t qs, ps ≠ .text t :: qs) (hrest : Ends rest) :
    Stop (writtenParts ps ++ quote :: rest) := by
  cases ps with
  | nil =>
    refine ⟨⟨quote, rfl, by decide⟩, fun hbracket => ?_⟩
    exact absurd (hrest 93 hbracket) (by decide)
  | cons p ps =>
    have hname (k : Keyword) (hk : isList k = false) :
        Stop (name k ++ (writtenParts ps ++ quote :: rest)) := by
      obtain ⟨c, letters, heq, hletters, hbracket, -, hsign⟩ := name_sign k
      obtain rfl := hsign.resolve_left (by simp [hk])
      refine ⟨⟨dollarSign, by simp [heq], by decide⟩, ?_⟩
      rw [heq, List.cons_append, List.tail_cons, List.head?_append_of_ne_nil _ hletters]
      exact hbracket
    have hsplit : writtenParts (p :: ps) ++ quote :: rest =
        p.written ++ (writtenParts ps ++ quote :: rest) := List.append_assoc _ _ _
    rw [hsplit]
    cases p with
    | text t => exact absurd rfl (h t ps)
    | dollar => exact ⟨⟨backslash, rfl, by decide⟩, by simp [Part.written]; decide⟩
    | string field => exact hname _ rfl
    | int field => exact hname _ rfl

def isInt : Keyword → Bool
  | .int _ => true
  | _ => false

theorem scan_intName {s : Scanner} (field : IntField) (rest : Bytes) :
    scan s (name (.int field) ++ rest) = (.returns (.keyword (.int field)), s, rest) := by
  have hlonger : ∀ a ∈ keywords, ∀ b ∈ keywords, isInt a.2 = true → a.1 <+: b.1 → b.1 = a.1 := by
    decide
  refine scan_keyword (name_mem (.int field)) (fun c hc => ?_) fun other hother hbegins => ?_
  · obtain ⟨d, letters, heq, -, -, -, hsign⟩ := name_sign (.int field)
    obtain rfl := hsign.resolve_left (by simp [isList])
    rw [heq] at hc
    rw [← Option.some.inj hc]
    exact candidates_dollar s.start
  · rcases LongestMatch.prefix_cases hbegins with hshort | ⟨more, hmore, heq, -⟩
    · exact hshort.length_le
    · have hsame := hlonger _ (name_mem (.int field)) other hother rfl ⟨more, heq.symm⟩
      exact absurd (List.append_right_eq_self.mp (heq.symm.trans hsame)) hmore

/-- The states of the parser that collect the parts of a string. -/
structure Collects (k : List StringPart → Parsing) : Prop where
  text : ∀ v parts s, shift v (k parts) (.string s) = some (k (parts ++ [.text s]), v)
  string : ∀ v parts field, shift v (k parts) (.keyword (.string field)) =
    some (k (parts ++ [.string field]), v)
  int : ∀ v parts field, shift v (k parts) (.keyword (.int field)) =
    some (k (parts ++ [.int field]), v)

theorem collects_string (field : StringField) : Collects (.string field) :=
  ⟨fun _ _ _ => rfl, fun _ _ _ => rfl, fun _ _ _ => rfl⟩

theorem collects_listString (field : ListField) (entries : List SettingsListEntry) :
    Collects (.listString field entries) :=
  ⟨fun _ _ _ => rfl, fun _ _ _ => rfl, fun _ _ _ => rfl⟩

theorem parts_collected {k : List StringPart → Parsing} (hk : Collects k) (hrest : Ends rest)
    (h : Readable ps) (parts : List StringPart) :
    Loops.Reaches advance ⟨⟨.ss, caller⟩, k parts, v, writtenParts ps ++ quote :: rest⟩
      ⟨⟨.ss, caller⟩, k (parts ++ ps.map Part.meaning), v, quote :: rest⟩ := by
  induction h generalizing parts with
  | nil =>
    rw [List.map_nil, List.append_nil]
    exact .refl
  | @text t ps hquiet hnext _ ih =>
    have hsplit : writtenParts (.text t :: ps) ++ quote :: rest =
        t.bytes ++ (writtenParts ps ++ quote :: rest) := List.append_assoc _ _ _
    have hscan : scan ⟨.ss, caller⟩ (t.bytes ++ (writtenParts ps ++ quote :: rest)) =
        (.returns (.string (cstr t.bytes)), ⟨.ss, caller⟩, writtenParts ps ++ quote :: rest) :=
      scan_text t.plain t.nonempty (stop_writtenParts hnext hrest) hquiet.noToken hquiet.noComment
    rw [cstr_eq hquiet.noNul] at hscan
    rw [hsplit]
    refine .head (advance_token (by simp [t.nonempty]) hscan (hk.text v parts t.bytes)) ?_
    have hrest := ih (parts ++ [.text t.bytes])
    rw [List.append_assoc] at hrest
    exact hrest
  | @dollar ps _ ih =>
    refine .head (advance_token (by simp) (scan_dollar caller _) (hk.text v parts [dollarSign])) ?_
    have hrest := ih (parts ++ [.text [dollarSign]])
    rw [List.append_assoc] at hrest
    exact hrest
  | @string field ps hsix _ ih =>
    have hsplit : writtenParts (.string field :: ps) ++ quote :: rest =
        word field ++ (writtenParts ps ++ quote :: rest) := List.append_assoc _ _ _
    have hafter : (writtenParts ps ++ quote :: rest).head? = some six →
        word field ++ [six] ∉ keywords.map Prod.fst := by
      intro hhead
      refine hsix ?_
      cases hps : writtenParts ps with
      | nil =>
        rw [hps, List.nil_append, List.head?_cons] at hhead
        exact absurd hhead (by decide)
      | cons c text =>
        rw [hps] at hhead
        exact hhead
    rw [hsplit]
    refine .head (advance_token (by simp [word_ne_nil]) (scan_word hafter)
      (hk.string v parts field)) ?_
    have hrest := ih (parts ++ [.string field])
    rw [List.append_assoc] at hrest
    exact hrest
  | @int field ps _ ih =>
    have hsplit : writtenParts (.int field :: ps) ++ quote :: rest =
        name (.int field) ++ (writtenParts ps ++ quote :: rest) := List.append_assoc _ _ _
    rw [hsplit]
    refine .head (advance_token (by simp [name_ne_nil]) (scan_intName field _)
      (hk.int v parts field)) ?_
    have hrest := ih (parts ++ [.int field])
    rw [List.append_assoc] at hrest
    exact hrest

/-! Values -/

variable {α β : Type} {m m' : Reading} {found : Option α} {good good' : Scanner → Prop}
  {next : α → Scanner → Reading} {next' : β → Scanner → Reading}

/-- What has a value is read to its end. Otherwise the program ends. -/
def Continues (m : Reading) (v : Values) (found : Option α) (good : Scanner → Prop)
    (next : α → Scanner → Reading) : Prop :=
  match found with
  | some x => ∃ s, good s ∧ Loops.Reaches advance m (next x s)
  | none => Loops.Returns advance m (.rejected v)

theorem Continues.head (h : Loops.Reaches advance m m') (hrest : Continues m' v found good next) :
    Continues m v found good next := by
  cases found with
  | some x =>
    obtain ⟨s, hs, hreach⟩ := hrest
    exact ⟨s, hs, h.trans hreach⟩
  | none => exact h.returns.mpr hrest

theorem Continues.bind {g : α → Option β} (h : Continues m v found good next)
    (hnext : ∀ x s, good s → Continues (next x s) v (g x) good' next') :
    Continues m v (found.bind g) good' next' := by
  cases found with
  | some x =>
    obtain ⟨s, hs, hreach⟩ := h
    exact (hnext x s hs).head hreach
  | none => exact h

theorem Continues.onwards {after : α → Scanner → Reading} (h : Continues m v found good next)
    (hnext : ∀ x s, good s → ∃ s', good' s' ∧ Loops.Reaches advance (next x s) (after x s')) :
    Continues m v found good' after := by
  cases found with
  | some x =>
    obtain ⟨s, hs, hreach⟩ := h
    obtain ⟨s', hs', hreach'⟩ := hnext x s hs
    exact ⟨s', hs', hreach.trans hreach'⟩
  | none => exact h

theorem Continues.map {f : α → β} (h : Continues m v found good fun x => next' (f x)) :
    Continues m v (found.map f) good next' := by
  cases found with
  | some x => exact h
  | none => exact h

theorem Continues.of_step {s : Scanner} {x : α} (h : advance m = .inl (next x s)) (hs : good s) :
    Continues m v (some x) good next :=
  ⟨s, hs, .round .refl h⟩

/-- A string up to its end. -/
theorem string_read {k : List StringPart → Parsing} (hk : Collects k) {p : Bytes → Parsing}
    {w : Bytes → Values} (hclose : ∀ parts, shift v (k parts) .stringmarker =
      (catenated v parts).map fun x => (p x, w x))
    (t : StringText) (caller : StartCondition) (hrest : Ends rest) :
    Continues ⟨⟨.ss, caller⟩, k [], v, writtenParts t.parts ++ quote :: rest⟩ v (t.value v)
      (· = ⟨caller, caller⟩) fun x s => ⟨s, p x, w x, rest⟩ := by
  have hparts : Loops.Reaches advance ⟨⟨.ss, caller⟩, k [], v, writtenParts t.parts ++ quote :: rest⟩
      ⟨⟨.ss, caller⟩, k (t.parts.map Part.meaning), v, quote :: rest⟩ :=
    parts_collected hk hrest t.readable []
  refine Continues.head hparts ?_
  have hscan := scan_stringClose caller rest
  cases hvalue : t.value v with
  | some x =>
    have hshift := hclose (t.parts.map Part.meaning)
    rw [show catenated v (t.parts.map Part.meaning) = some x from hvalue, Option.map_some] at hshift
    exact .of_step (advance_token (by simp) hscan hshift) rfl
  | none =>
    have hshift := hclose (t.parts.map Part.meaning)
    rw [show catenated v (t.parts.map Part.meaning) = none from hvalue, Option.map_none] at hshift
    exact (Loops.returns_of_inr (advance_error (by simp) hscan hshift)).mpr rfl

theorem numeral_next (n : Numeral) (rest : Bytes) : Next (n.digits ++ rest) := by
  obtain ⟨digits, hne, hdigits⟩ := n
  obtain ⟨c, ds, rfl⟩ := List.exists_cons_of_ne_nil hne
  have hkind : ∀ c, isDigit c = true → isBlank c = false ∧ c ≠ equals :=
    forall_byte (P := fun c => isDigit c = true → isBlank c = false ∧ c ≠ equals) (by decide +kernel)
  exact next_cons (hkind c (hdigits c (by simp))) _

theorem numeral_read {s : Scanner} {p p' : Parsing} {w : Values} (n : Numeral)
    (hstart : s.start = .pv ∨ s.start = .ll) (hshift : shift v p (.intval n.value) = some (p', w))
    (hrest : Ends rest) : advance ⟨s, p, v, n.digits ++ rest⟩ = .inl ⟨s, p', w, rest⟩ :=
  advance_token (by simp [n.nonempty]) (scan_numeral n hstart hrest.number) hshift

theorem entry_next (e : Entry) (rest : Bytes) : Next (e.written ++ rest) := by
  cases e with
  | integer n => exact numeral_next n rest
  | string t => exact next_cons (by decide) _

/-- In a list. -/
def InList (s : Scanner) : Prop := s.start = .ll

theorem InList.not_ss {s : Scanner} (hs : InList s) : s.start ≠ .ss := by
  rw [InList.eq_def] at hs
  rw [hs]
  decide

theorem entry_read {s : Scanner} (hs : InList s) (e : Entry) (field : ListField)
    (entries : List SettingsListEntry) (hrest : Ends rest) :
    Continues ⟨s, .list field entries, v, e.written ++ rest⟩ v (e.value v) InList
      fun x s => ⟨s, .listEntry field (entries ++ [x]), v, rest⟩ := by
  cases e with
  | integer n => exact .of_step (numeral_read n (.inr hs) rfl hrest) hs
  | string t =>
    obtain ⟨start, caller⟩ := s
    obtain rfl : start = .ll := hs
    have hsplit : Entry.written (.string t) ++ rest =
        quote :: (writtenParts t.parts ++ quote :: rest) := by
      simp [Entry.written, StringText.written]
    have hopen : advance ⟨⟨.ll, caller⟩, .list field entries, v,
        quote :: (writtenParts t.parts ++ quote :: rest)⟩ =
        .inl ⟨⟨.ss, .ll⟩, .listString field entries [], v, writtenParts t.parts ++ quote :: rest⟩ :=
      advance_token (by simp) (scan_listString caller _) rfl
    have hstring := string_read (collects_listString field entries)
      (p := fun x => .listEntry field (entries ++ [.string x])) (w := fun _ => v)
      (fun parts => rfl) t .ll hrest (v := v)
    rw [hsplit]
    refine Continues.head (.round .refl hopen) ?_
    refine .map (hstring.onwards fun x s hs => ⟨s, ?_, .refl⟩)
    rw [hs]
    rfl

/-! Lists -/

/-- Between settings and in front of their values. -/
def TopLevel (s : Scanner) : Prop := s.start = .initial ∨ s.start = .pv

theorem TopLevel.not_ss {s : Scanner} (hs : TopLevel s) : s.start ≠ .ss := by
  rcases hs with h | h <;> rw [h] <;> decide

theorem closing_read {s : Scanner} {p : Parsing} {field : ListField}
    {entries : List SettingsListEntry} (hs : InList s) (closing : Gap)
    (hshift : shift v p .listclose = some (.setting, v.setList field entries)) (rest : Bytes) :
    Continues ⟨s, p, v, closing.written ++ rightParen :: rest⟩ v (some entries) TopLevel
      fun xs s => ⟨s, .setting, v.setList field xs, rest⟩ := by
  have hgap := gap_passed closing (p := p) (v := v) hs.not_ss
    (next_cons (by decide) rest : Next (rightParen :: rest))
  obtain ⟨start, caller⟩ := s
  obtain rfl : start = .ll := hs
  exact ⟨⟨.initial, caller⟩, .inl rfl,
    .round hgap (advance_token (by simp) (scan_listClose caller rest) hshift)⟩

theorem comma_read {s : Scanner} (hs : InList s) (g : Gap) (field : ListField)
    (entries : List SettingsListEntry) (rest : Bytes) :
    Loops.Reaches advance ⟨s, .listEntry field entries, v, g.written ++ comma :: rest⟩
      ⟨s, .list field entries, v, rest⟩ := by
  have hgap := gap_passed g (p := .listEntry field entries) (v := v) hs.not_ss
    (next_cons (by decide) rest : Next (comma :: rest))
  obtain ⟨start, caller⟩ := s
  obtain rfl : start = .ll := hs
  exact .round hgap (advance_token (by simp) (scan_listSep caller rest) rfl)

theorem values_cons (v : Values) (e : Entry) (es : List Entry) :
    (e :: es).mapM (Entry.value v) =
      (e.value v).bind fun x => (es.mapM (Entry.value v)).map (x :: ·) := by
  rw [List.mapM_cons]
  cases e.value v with
  | none => rfl
  | some x => cases es.mapM (Entry.value v) <;> rfl

/-- The entries up to the end of the list. -/
theorem entries_read {s : Scanner} (hs : InList s) (front : List (Gap × Entry × Gap))
    (last : Option (Gap × Entry)) (closing : Gap) (field : ListField)
    (entries : List SettingsListEntry) (rest : Bytes) :
    Continues ⟨s, .list field entries, v,
        front.flatMap withComma ++ (lastEntry last ++ (closing.written ++ rightParen :: rest))⟩ v
      ((front.map (·.2.1) ++ (last.map Prod.snd).toList).mapM (Entry.value v)) TopLevel
      fun xs s => ⟨s, .setting, v.setList field (entries ++ xs), rest⟩ := by
  induction front generalizing s entries with
  | nil =>
    cases last with
    | none =>
      obtain ⟨s', hs', hreach⟩ :=
        closing_read (p := .list field entries) (v := v) hs closing rfl rest
      refine ⟨s', hs', ?_⟩
      change Loops.Reaches advance _ ⟨s', .setting, v.setList field (entries ++ []), rest⟩
      rw [List.append_nil]
      exact hreach
    | some e =>
      obtain ⟨before, e⟩ := e
      have hsplit : lastEntry (some (before, e)) ++ (closing.written ++ rightParen :: rest) =
          before.written ++ (e.written ++ (closing.written ++ rightParen :: rest)) :=
        List.append_assoc _ _ _
      rw [List.flatMap_nil, List.nil_append, hsplit]
      refine Continues.head (gap_passed before hs.not_ss (entry_next e _)) ?_
      have hvalues : [e].mapM (Entry.value v) = (e.value v).bind fun x => some [x] :=
        values_cons v e []
      change Continues _ v ([e].mapM (Entry.value v)) TopLevel _
      rw [hvalues]
      refine (entry_read hs e field entries (.gap closing (ends_cons (by decide) _))).bind ?_
      intro x s hs
      exact closing_read hs closing rfl rest
  | cons e front ih =>
    obtain ⟨before, e, after⟩ := e
    generalize hback : lastEntry last ++ (closing.written ++ rightParen :: rest) = back at ih ⊢
    have hsplit : ((before, e, after) :: front).flatMap withComma ++ back = before.written ++
        (e.written ++ (after.written ++ comma :: (front.flatMap withComma ++ back))) := by
      simp [withComma]
    rw [hsplit, List.map_cons, List.cons_append, values_cons]
    refine Continues.head (gap_passed before hs.not_ss (entry_next e _)) ?_
    refine (entry_read hs e field entries (.gap after (ends_cons (by decide) _))).bind ?_
    intro x s hs
    refine Continues.head (comma_read hs after field (entries ++ [x]) _) (Continues.map ?_)
    have hrest := ih hs (entries ++ [x])
    simp only [List.append_assoc, List.singleton_append] at hrest
    exact hrest

theorem list_read {s : Scanner} (hs : s.start = .pv) (field : ListField) (l : ListText)
    (rest : Bytes) :
    Continues ⟨s, .assigned (.list field), v, l.written ++ rest⟩ v
      ((l.entries.mapM (Entry.value v)).map (v.setList field)) TopLevel
      fun w s => ⟨s, .setting, w, rest⟩ := by
  obtain ⟨start, caller⟩ := s
  obtain rfl : start = .pv := hs
  obtain ⟨front, last, closing⟩ := l
  have hsplit : ListText.written ⟨front, last, closing⟩ ++ rest = leftParen ::
      (front.flatMap withComma ++ (lastEntry last ++ (closing.written ++ rightParen :: rest))) := by
    simp [ListText.written]
  have hinside : InList ⟨.ll, caller⟩ := rfl
  rw [hsplit]
  exact .head (.round .refl (advance_token (by simp) (scan_listOpen caller _) rfl))
    (.map (entries_read hinside front last closing field [] rest))

/-! Settings -/

theorem truthWord_next (w : Word) (rest : Bytes) : Next (w.text ++ rest) := by
  obtain ⟨text, hword⟩ := w
  cases text with
  | nil => exact absurd hword (by decide)
  | cons c text =>
    have hheads : ∀ word ∈ words, word.head? ∈ [some 121, some 110, some 116, some 102] := by decide
    have hhead : toLower c ∈ ([121, 110, 116, 102] : Bytes) := by simpa using hheads _ hword
    have hkind : ∀ c, toLower c ∈ ([121, 110, 116, 102] : Bytes) → isBlank c = false ∧ c ≠ equals :=
      forall_byte (P := fun c => toLower c ∈ ([121, 110, 116, 102] : Bytes) →
        isBlank c = false ∧ c ≠ equals) (by decide +kernel)
    exact next_cons (hkind c hhead) _

theorem assignment_next (a : Assignment) (rest : Bytes) : Next (a.written ++ rest) := by
  cases a with
  | string _ t => exact next_cons (by decide) _
  | int _ n => exact numeral_next n rest
  | boolWord _ w => exact truthWord_next w rest
  | boolInt _ n => exact numeral_next n rest
  | list _ l => exact next_cons (by decide) _

/-- The value of a setting. -/
theorem assignment_read {s : Scanner} (hs : s.start = .pv) (a : Assignment) (hrest : Ends rest) :
    Continues ⟨s, .assigned a.keyword, v, a.written ++ rest⟩ v (a.store v) TopLevel
      fun w s => ⟨s, .setting, w, rest⟩ := by
  cases a with
  | int field n => exact .of_step (numeral_read n (.inl hs) rfl hrest) (.inr hs)
  | boolInt field n => exact .of_step (numeral_read n (.inl hs) rfl hrest) (.inr hs)
  | list field l => exact list_read hs field l rest
  | boolWord field w =>
    have hne : w.text ≠ [] := by
      intro hnil
      have hword := w.isWord
      rw [hnil] at hword
      exact absurd hword (by decide)
    have hshift : shift v (.assigned (.bool field)) w.token =
        some (.setting, v.setBool field w.value) := by
      unfold Word.token
      split <;> rfl
    exact .of_step (advance_token (by simp [Assignment.written, hne])
      (scan_truthWord w hs rest) hshift) (.inr hs)
  | string field t =>
    obtain ⟨start, caller⟩ := s
    obtain rfl : start = .pv := hs
    have hsplit : Assignment.written (.string field t) ++ rest =
        quote :: (writtenParts t.parts ++ quote :: rest) := by
      simp [Assignment.written, StringText.written]
    have hstring := string_read (collects_string field) (p := fun _ => .setting)
      (w := fun x => v.setString field x) (fun parts => rfl) t .pv hrest
    rw [hsplit]
    refine .head (.round .refl (advance_token (by simp) (scan_stringOpen caller _) rfl)) ?_
    refine .map (hstring.onwards fun x s hs => ⟨s, ?_, .refl⟩)
    rw [hs]
    exact .inr rfl

/-- One setting, from the gap in front of it to its separator. -/
theorem setting_read {s : Scanner} (hs : TopLevel s) (a : Setting) (rest : Bytes) :
    Continues ⟨s, .config, v, a.written ++ rest⟩ v (a.assignment.store v) TopLevel
      fun w s => ⟨s, .config, w, rest⟩ := by
  obtain ⟨before, left, right, assignment, after, hleft, hright⟩ := a
  have hsplit : Setting.written ⟨before, left, right, assignment, after, hleft, hright⟩ ++ rest =
      before.written ++ (name assignment.keyword ++ ((left ++ equals :: right) ++
        (assignment.written ++ (after.written ++ semicolon :: rest)))) := by
    simp [Setting.written]
  have hname : Next (name assignment.keyword ++ ((left ++ equals :: right) ++
      (assignment.written ++ (after.written ++ semicolon :: rest)))) := by
    obtain ⟨c, letters, heq, -, -, hsign, -⟩ := name_sign assignment.keyword
    rw [heq]
    refine next_cons ?_ _
    rcases hsign with rfl | rfl <;> decide
  have hequals : Ends ((left ++ equals :: right) ++
      (assignment.written ++ (after.written ++ semicolon :: rest))) := by
    rw [List.append_assoc]
    exact .blanks hleft (ends_cons (by decide) _)
  have hkeyword := scan_name_end (s := s) (name_mem assignment.keyword) (.inl hs.not_ss)
    fun c hc => hequals.name c hc
  rw [hsplit]
  refine .head (gap_passed before hs.not_ss hname) (.head (.round .refl
    (advance_token (by simp [name_ne_nil]) hkeyword rfl)) (.head (.round .refl (advance_token
      (by simp) (scan_assignment hs hleft hright (assignment_next assignment _)) rfl)) ?_))
  have hend : Ends (after.written ++ semicolon :: rest) := .gap after (ends_cons (by decide) _)
  have hvalue := assignment_read (s := { s with start := .pv }) (v := v) rfl assignment hend
  exact hvalue.onwards fun w s hs => ⟨s, hs, .round
    (gap_passed after hs.not_ss (next_cons (by decide) _))
    (advance_token (by simp) (scan_separator hs.not_ss rest) rfl)⟩

theorem settings_read {s : Scanner} (hs : TopLevel s) (settings : List Setting) (final : Gap) :
    Loops.Returns advance ⟨s, .config, v, settings.flatMap Setting.written ++ final.written⟩
      (meaning v settings) := by
  induction settings generalizing s v with
  | nil =>
    have hnext : Next [] := fun c hc => by cases hc
    have hgap := gap_passed final (p := .config) (v := v) hs.not_ss hnext
    rw [List.append_nil] at hgap
    have hend : advance ⟨s, .config, v, []⟩ = .inr (.accepted v) := rfl
    exact hgap.returns.mpr ((Loops.returns_of_inr hend).mpr rfl)
  | cons a settings ih =>
    have hread := setting_read (v := v) hs a (settings.flatMap Setting.written ++ final.written)
    rw [← List.append_assoc] at hread
    rw [List.flatMap_cons, meaning]
    cases hstore : a.assignment.store v with
    | none =>
      rw [hstore] at hread
      exact hread
    | some w =>
      rw [hstore] at hread
      obtain ⟨s', hs', hreach⟩ := hread
      exact hreach.returns.mpr (ih hs')

/-- A file does what its settings do one after the other: each value goes to its field, with the
values that the fields in it have by then, up to the first string that has one without a value.
Comments and blanks change nothing. -/
theorem file_means (v : Values) (f : ConfigFile) : Yyparse v f.written (meaning v f.settings) :=
  settings_read (.inl rfl) f.settings f.final

end ChaosVpn.ConfigFiles
