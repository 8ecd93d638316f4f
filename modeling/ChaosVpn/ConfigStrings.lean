import ChaosVpn.ConfigGrammar

/-! Strings of the configuration file, written as texts, escaped dollar signs and variables.
The scanner reads them with all its other rules still active. -/

namespace ChaosVpn.ConfigStrings
open CStrings ConfigLexer ConfigGrammar LongestMatch

def six : UInt8 := 54

/-- How a variable is written. -/
def word (field : StringField) : Bytes :=
  ((keywords.find? fun keyword => keyword.2 = .string field).map Prod.fst).getD []

structure Text where
  bytes : Bytes
  nonempty : bytes ≠ []
  plain : ∀ c ∈ bytes, isPlain c = true

inductive Piece
  | text (t : Text)
  | dollar
  | reference (field : StringField)

def Piece.written : Piece → Bytes
  | .text t => t.bytes
  | .dollar => [backslash, dollarSign]
  | .reference field => word field

def Piece.value (v : Values) : Piece → Bytes
  | .text t => t.bytes
  | .dollar => [dollarSign]
  | .reference field => (v.strings field).getD []

def written (ps : List Piece) : Bytes := ps.flatMap Piece.written

def value (v : Values) (ps : List Piece) : Bytes := ps.flatMap (Piece.value v)

theorem written_cons (p : Piece) (ps : List Piece) :
    written (p :: ps) = p.written ++ written ps := rfl

theorem value_cons (v : Values) (p : Piece) (ps : List Piece) :
    value v (p :: ps) = p.value v ++ value v ps := rfl

/-- The setting as a line of the file. -/
def setting (field : StringField) (ps : List Piece) : Bytes :=
  word field ++ (ascii " = " ++ quote :: (written ps ++ [quote, semicolon]))

/-- With the variables in it set, the setting is accepted and stores what its pieces stand for. -/
def MeansItself (field : StringField) (ps : List Piece) : Prop :=
  ∀ v : Values, (∀ g, Piece.reference g ∈ ps → v.strings g ≠ none) →
    Yyparse v (setting field ps) (.accepted (v.setString field (value v ps)))

/-! When the scanner reads the pieces as they were meant -/

/-- Not a word, an assignment or a list variable, no comment, and no NUL byte. -/
structure Quiet (t : Bytes) : Prop where
  noToken : ∀ r ∈ rivals, ¬ Matches r.pattern t
  noComment : t.head? = some hash → lineFeed ∈ t
  noNul : (0 : UInt8) ∉ t

def Text.append (t t' : Text) : Text where
  bytes := t.bytes ++ t'.bytes
  nonempty := by simp [t.nonempty]
  plain c hc := (List.mem_append.mp hc).elim (t.plain c) (t'.plain c)

/-- Texts that follow each other are one text. -/
def joined : List Piece → List Piece
  | [] => []
  | .text t :: ps =>
    match joined ps with
    | .text t' :: qs => .text (t.append t') :: qs
    | qs => .text t :: qs
  | .dollar :: ps => .dollar :: joined ps
  | .reference field :: ps => .reference field :: joined ps

/-- Every text is quiet, and no variable goes on with a 6 where this makes another one. -/
def Clear : List Piece → Prop
  | [] => True
  | .text t :: ps => Quiet t.bytes ∧ Clear ps
  | .dollar :: ps => Clear ps
  | .reference field :: ps =>
    ((written ps).head? = some six → word field ++ [six] ∉ keywords.map Prod.fst) ∧ Clear ps

/-! The names of the variables -/

def isString : Keyword → Bool
  | .string _ => true
  | _ => false

theorem word_mem (field : StringField) : (word field, Keyword.string field) ∈ keywords := by
  cases field <;> decide

/-- A name goes on as another name only with a 6. -/
theorem keywords_longer : ∀ a ∈ keywords, ∀ b ∈ keywords, isString a.2 = true →
    a.1 <+: b.1 → b.1 = a.1 ∨ b.1 = a.1 ++ [six] ∧ isString b.2 = true := by
  decide

theorem keywords_shape : ∀ a ∈ keywords, isString a.2 = true →
    a.1.head? = some dollarSign ∧ a.1.tail ≠ [] ∧ a.1.tail.head? ≠ some 93 ∧ lineFeed ∉ a.1 := by
  decide

theorem word_letters (g : StringField) :
    ∃ letters, word g = dollarSign :: letters ∧ letters ≠ [] ∧ letters.head? ≠ some 93 := by
  obtain ⟨hdollar, hletters, hbracket, -⟩ := keywords_shape _ (word_mem g) rfl
  obtain ⟨letters, hword : word g = dollarSign :: letters⟩ := List.head?_eq_some_iff.mp hdollar
  simp only [hword, List.tail_cons] at hletters hbracket
  exact ⟨letters, hword, hletters, hbracket⟩

theorem word_ne_nil (g : StringField) : word g ≠ [] := by
  obtain ⟨letters, hword, -⟩ := word_letters g
  rw [hword]
  exact List.cons_ne_nil _ _

theorem candidates_dollar (start : StartCondition) : candidates start dollarSign = [] := by
  cases start <;> decide

variable {s : Scanner} {v : Values} {field g : StringField} {ps : List Piece} {t : Text}
  {rest : Bytes} {parts : List StringPart} {outcome : Outcome}

/-- A variable is read, unless what follows makes it another one. -/
theorem scan_word (h : rest.head? = some six → word g ++ [six] ∉ keywords.map Prod.fst) :
    scan s (word g ++ rest) = (.returns (.keyword (.string g)), s, rest) := by
  refine scan_keyword (word_mem g) (fun c hc => ?_) fun other hother hbegins => ?_
  · obtain ⟨letters, hword, -⟩ := word_letters g
    rw [hword] at hc
    rw [← Option.some.inj hc]
    exact candidates_dollar s.start
  · rcases prefix_cases hbegins with hshort | ⟨more, hmore, heq, hrest⟩
    · exact hshort.length_le
    · have hlonger := keywords_longer _ (word_mem g) other hother rfl ⟨more, heq.symm⟩
      rcases hlonger with hsame | ⟨hsix, -⟩
      · exact absurd (List.append_right_eq_self.mp (heq.symm.trans hsame)) hmore
      · obtain rfl : more = [six] := List.append_cancel_left (heq.symm.trans hsix)
        obtain ⟨back, rfl⟩ := hrest
        exact absurd (hsix ▸ List.mem_map_of_mem hother) (h rfl)

/-- What is read inside a string. -/
def inString (field : StringField) (parts : List StringPart) (v : Values) (text : Bytes) :
    Reading :=
  ⟨⟨.ss, .pv⟩, .string field parts, v, text⟩

theorem setting_starts : Loops.Returns advance (opened v (setting field ps)) outcome ↔
    Loops.Returns advance (inString field [] v (written ps ++ [quote, semicolon])) outcome := by
  have hword : advance (opened v (setting field ps)) = .inl ⟨⟨.initial, .initial⟩,
      .keyword (.string field), v, ascii " = " ++ quote :: (written ps ++ [quote, semicolon])⟩ :=
    advance_token (by simp [setting, word_ne_nil]) (scan_word fun h => by
      have hspace : ascii " = " = [space, equals, space] := by decide
      rw [hspace] at h
      exact absurd (Option.some.inj h) (by decide)) rfl
  have hassign : advance ⟨⟨.initial, .initial⟩, .keyword (.string field), v,
      ascii " = " ++ quote :: (written ps ++ [quote, semicolon])⟩ =
        .inl ⟨⟨.pv, .initial⟩, .assigned (.string field), v,
          quote :: (written ps ++ [quote, semicolon])⟩ := by
    refine advance_token (by simp) (scan_assign (.inl rfl) fun c hc => ?_) rfl
    rw [← Option.some.inj hc]
    decide
  have hquote : advance ⟨⟨.pv, .initial⟩, .assigned (.string field), v,
      quote :: (written ps ++ [quote, semicolon])⟩ =
        .inl (inString field [] v (written ps ++ [quote, semicolon])) :=
    advance_token (by simp) (scan_stringOpen _ _) rfl
  rw [Loops.returns_of_inl hword, Loops.returns_of_inl hassign, Loops.returns_of_inl hquote]

/-- The end of the setting and of the file. -/
theorem setting_ends {x : Bytes} (hparts : catenated v parts = some x) :
    Loops.Returns advance (inString field parts v [quote, semicolon]) outcome ↔
      .accepted (v.setString field x) = outcome := by
  have hquote : advance (inString field parts v [quote, semicolon]) =
      .inl ⟨⟨.pv, .pv⟩, .setting, v.setString field x, [semicolon]⟩ :=
    advance_token (by simp) (scan_stringClose _ _) (by simp [shift, hparts])
  have hseparator : advance ⟨⟨.pv, .pv⟩, .setting, v.setString field x, [semicolon]⟩ =
      .inl ⟨⟨.pv, .pv⟩, .config, v.setString field x, []⟩ :=
    advance_token (by simp) (scan_separator (by decide) []) rfl
  have hend : advance ⟨⟨.pv, .pv⟩, .config, v.setString field x, []⟩ =
      .inr (.accepted (v.setString field x)) := rfl
  rw [Loops.returns_of_inl hquote, Loops.returns_of_inl hseparator, Loops.returns_of_inr hend]

theorem advance_dollar (text : Bytes) :
    advance (inString field parts v (backslash :: dollarSign :: text)) =
      .inl (inString field (parts ++ [.text [dollarSign]]) v text) :=
  advance_token (by simp) (scan_dollar _ _) rfl

theorem advance_word (h : rest.head? = some six → word g ++ [six] ∉ keywords.map Prod.fst) :
    advance (inString field parts v (word g ++ rest)) =
      .inl (inString field (parts ++ [.string g]) v rest) :=
  advance_token (by simp [word_ne_nil]) (scan_word h) rfl

theorem advance_text (hstop : Stop rest) (hrivals : ∀ r ∈ rivals, ¬ Matches r.pattern t.bytes)
    (hline : t.bytes.head? = some hash → lineFeed ∈ t.bytes) :
    advance (inString field parts v (t.bytes ++ rest)) =
      .inl (inString field (parts ++ [.text (cstr t.bytes)]) v rest) :=
  advance_token (by simp [t.nonempty]) (scan_text t.plain t.nonempty hstop hrivals hline) rfl

/-! Pieces that are read as they were meant -/

/-- No two texts follow each other. -/
inductive Separated : List Piece → Prop
  | nil : Separated []
  | text (t : Text) {ps : List Piece} :
    Separated ps → (∀ t' qs, ps ≠ .text t' :: qs) → Separated (.text t :: ps)
  | dollar {ps : List Piece} : Separated ps → Separated (.dollar :: ps)
  | reference (field : StringField) {ps : List Piece} :
    Separated ps → Separated (.reference field :: ps)

def Piece.part : Piece → StringPart
  | .text t => .text t.bytes
  | .dollar => .text [dollarSign]
  | .reference field => .string field

/-- A text ends at the next piece or at the quote. -/
theorem stop_written (h : ∀ t qs, ps ≠ .text t :: qs) :
    Stop (written ps ++ [quote, semicolon]) := by
  cases ps with
  | nil => exact ⟨⟨quote, rfl, by decide⟩, by decide⟩
  | cons p ps =>
    cases p with
    | text t => exact absurd rfl (h t ps)
    | dollar => exact ⟨⟨backslash, rfl, by decide⟩, by simp [written, Piece.written]; decide⟩
    | reference g =>
      obtain ⟨letters, hword, hletters, hbracket⟩ := word_letters g
      have hwritten : written (.reference g :: ps) ++ [quote, semicolon] =
          dollarSign :: (letters ++ (written ps ++ [quote, semicolon])) := by
        simp [written, Piece.written, hword]
      rw [hwritten]
      refine ⟨⟨dollarSign, rfl, by decide⟩, ?_⟩
      rw [List.tail_cons, List.head?_append_of_ne_nil _ hletters]
      exact hbracket

theorem catenated_append {parts' : List StringPart} {x y : Bytes} (h : catenated v parts = some x)
    (h' : catenated v parts' = some y) : catenated v (parts ++ parts') = some (x ++ y) := by
  induction parts generalizing x with
  | nil =>
    obtain rfl := Option.some.inj h
    exact h'
  | cons part parts ih =>
    cases part with
    | text t =>
      obtain ⟨rest, hrest, rfl⟩ := Option.map_eq_some_iff.mp h
      rw [List.cons_append, catenated, ih hrest, Option.map_some, List.append_assoc]
    | int i =>
      obtain ⟨rest, hrest, rfl⟩ := Option.map_eq_some_iff.mp h
      rw [List.cons_append, catenated, ih hrest, Option.map_some, List.append_assoc]
    | string g =>
      rw [catenated] at h
      split at h
      · rename_i rest value hrest hvalue
        rw [← Option.some.inj h, List.cons_append, catenated, ih hrest, hvalue, List.append_assoc]
      · cases h

theorem catenated_parts (h : ∀ g, Piece.reference g ∈ ps → v.strings g ≠ none) :
    catenated v (ps.map Piece.part) = some (value v ps) := by
  induction ps with
  | nil => rfl
  | cons p ps ih =>
    have hrest := ih fun g hg => h g (by simp [hg])
    cases p with
    | text t => rw [List.map_cons, Piece.part, catenated, hrest]; rfl
    | dollar => rw [List.map_cons, Piece.part, catenated, hrest]; rfl
    | reference g =>
      obtain ⟨x, hx⟩ := Option.ne_none_iff_exists'.mp (h g (by simp))
      rw [List.map_cons, Piece.part, catenated, hrest, hx]
      simp [value, Piece.value, hx]

/-- Clear pieces reach the parser as they are. -/
theorem clear_reads (hseparated : Separated ps) (hclear : Clear ps) (parts : List StringPart) :
    Loops.Returns advance (inString field parts v (written ps ++ [quote, semicolon])) outcome ↔
      Loops.Returns advance (inString field (parts ++ ps.map Piece.part) v [quote, semicolon])
        outcome := by
  induction hseparated generalizing parts with
  | nil => rw [List.map_nil, List.append_nil]; rfl
  | text t hps hnext ih =>
    rename_i ps
    obtain ⟨hquiet, hclear⟩ := hclear
    have hcstr : cstr t.bytes = t.bytes := cstr_eq hquiet.noNul
    have hwritten : written (.text t :: ps) ++ [quote, semicolon] =
        t.bytes ++ (written ps ++ [quote, semicolon]) := List.append_assoc _ _ _
    rw [hwritten, Loops.returns_of_inl
      (advance_text (stop_written hnext) hquiet.noToken hquiet.noComment), hcstr, ih hclear,
      List.append_assoc]
    rfl
  | dollar hps ih =>
    rename_i ps
    have hwritten : written (.dollar :: ps) ++ [quote, semicolon] =
        backslash :: dollarSign :: (written ps ++ [quote, semicolon]) := rfl
    rw [hwritten, Loops.returns_of_inl (advance_dollar _), ih hclear, List.append_assoc]
    rfl
  | reference g hps ih =>
    rename_i ps
    obtain ⟨hsix, hclear⟩ := hclear
    have hwritten : written (.reference g :: ps) ++ [quote, semicolon] =
        word g ++ (written ps ++ [quote, semicolon]) := List.append_assoc _ _ _
    have hnext : (written ps ++ [quote, semicolon]).head? = some six →
        word g ++ [six] ∉ keywords.map Prod.fst := by
      intro h
      refine hsix ?_
      cases hps : written ps with
      | nil =>
        rw [hps] at h
        exact absurd h (by decide)
      | cons c text =>
        rw [hps] at h
        exact h
    rw [hwritten, Loops.returns_of_inl (advance_word hnext), ih hclear, List.append_assoc]
    rfl

/-! Joining texts changes nothing -/

theorem joined_text (t : Text) (ps : List Piece) :
    (∃ t' qs, joined ps = .text t' :: qs ∧ joined (.text t :: ps) = .text (t.append t') :: qs) ∨
      (∀ t' qs, joined ps ≠ .text t' :: qs) ∧ joined (.text t :: ps) = .text t :: joined ps := by
  cases hps : joined ps with
  | nil => exact .inr ⟨by simp, by rw [joined, hps]⟩
  | cons q qs =>
    cases q with
    | text t' => exact .inl ⟨t', qs, rfl, by rw [joined, hps]⟩
    | dollar => exact .inr ⟨by simp, by rw [joined, hps]⟩
    | reference g => exact .inr ⟨by simp, by rw [joined, hps]⟩

theorem joined_separated (ps : List Piece) : Separated (joined ps) := by
  induction ps with
  | nil => exact .nil
  | cons p ps ih =>
    cases p with
    | dollar => exact .dollar ih
    | reference g => exact .reference g ih
    | text t =>
      rcases joined_text t ps with ⟨t', qs, hps, heq⟩ | ⟨hnext, heq⟩
      · rw [hps] at ih
        rw [heq]
        cases ih with
        | text _ hqs hnext => exact .text _ hqs hnext
      · rw [heq]
        exact .text t ih hnext

/-- What is made of a list of pieces piece by piece, where texts become their bytes. -/
theorem flatMap_joined {f : Piece → Bytes} (hf : ∀ t, f (.text t) = t.bytes) (ps : List Piece) :
    (joined ps).flatMap f = ps.flatMap f := by
  induction ps with
  | nil => rfl
  | cons p ps ih =>
    cases p with
    | dollar => rw [joined, List.flatMap_cons, List.flatMap_cons, ih]
    | reference g => rw [joined, List.flatMap_cons, List.flatMap_cons, ih]
    | text t =>
      rw [List.flatMap_cons, ← ih]
      rcases joined_text t ps with ⟨t', qs, hps, heq⟩ | ⟨-, heq⟩
      · rw [heq, hps, List.flatMap_cons, List.flatMap_cons, hf, hf, hf, Text.append,
          List.append_assoc]
      · rw [heq, List.flatMap_cons]

theorem written_joined (ps : List Piece) : written (joined ps) = written ps :=
  flatMap_joined (fun _ => rfl) ps

theorem value_joined (v : Values) (ps : List Piece) : value v (joined ps) = value v ps :=
  flatMap_joined (fun _ => rfl) ps

theorem mem_joined (h : Piece.reference g ∈ joined ps) : Piece.reference g ∈ ps := by
  induction ps with
  | nil => exact h
  | cons p ps ih =>
    cases p with
    | dollar => exact List.mem_cons_of_mem _ (ih (by simpa [joined] using h))
    | reference g' =>
      rcases List.mem_cons.mp h with heq | h
      · rw [heq]
        exact List.mem_cons_self
      · exact List.mem_cons_of_mem _ (ih h)
    | text t =>
      refine List.mem_cons_of_mem _ (ih ?_)
      rcases joined_text t ps with ⟨t', qs, hps, heq⟩ | ⟨-, heq⟩
      · rw [heq] at h
        rw [hps]
        exact List.mem_cons_of_mem _ (by simpa using h)
      · rw [heq] at h
        simpa using h

theorem meansItself_of_clear (h : Clear (joined ps)) : MeansItself field ps := by
  intro v hset
  have hstored := catenated_parts fun g hg => hset g (mem_joined hg)
  rw [Yyparse, setting_starts, ← written_joined, clear_reads (joined_separated ps) h,
    List.nil_append, setting_ends hstored, value_joined]

/-! What is accepted stores no more than the pieces stand for -/

/-- All strings are set and empty. -/
def cleared : Values := ⟨fun _ => some [], fun _ => 0, fun _ => false, fun _ => none⟩

/-- The stored text is not longer than the pieces, and shorter when they are not clear. -/
def Bounded (field : StringField) (ps : List Piece) : Prop :=
  ∀ parts y w, catenated cleared parts = some y →
    Loops.Returns advance (inString field parts cleared (written ps ++ [quote, semicolon]))
      (.accepted w) →
      ∃ x, w.strings field = some x ∧ x.length ≤ y.length + (value cleared ps).length ∧
        (x.length = y.length + (value cleared ps).length → Clear ps)

theorem bounded_nil (field : StringField) : Bounded field [] := by
  intro parts y w hparts hreturns
  have hend := (setting_ends hparts).mp hreturns
  refine ⟨y, ?_, by simp [value], fun _ => trivial⟩
  rw [← Outcome.accepted.inj hend]
  exact Function.update_self _ _ _

theorem catenated_text {y : Bytes} (h : catenated v parts = some y) (x : Bytes) :
    catenated v (parts ++ [.text x]) = some (y ++ x) := by
  have hone : catenated v [.text x] = some x := by simp [catenated]
  exact catenated_append h hone

theorem catenated_cleared {y : Bytes} (h : catenated cleared parts = some y) (g : StringField) :
    catenated cleared (parts ++ [.string g]) = some y := by
  have hone : catenated cleared [.string g] = some [] := rfl
  rw [catenated_append h hone, List.append_nil]

theorem bounded_dollar (h : Bounded field ps) : Bounded field (.dollar :: ps) := by
  intro parts y w hparts hreturns
  have hwritten : written (.dollar :: ps) ++ [quote, semicolon] =
      backslash :: dollarSign :: (written ps ++ [quote, semicolon]) := rfl
  rw [hwritten, Loops.returns_of_inl (advance_dollar _)] at hreturns
  obtain ⟨x, hx, hle, hclear⟩ := h _ _ w (catenated_text hparts _) hreturns
  have hvalue : (value cleared (.dollar :: ps)).length = 1 + (value cleared ps).length := by
    simp [value, Piece.value, Nat.add_comm]
  rw [List.length_append, List.length_singleton] at hle hclear
  exact ⟨x, hx, by omega, fun heq => hclear (by omega)⟩

/-- The rest of a text with what stands behind it. -/
theorem rest_of_text {front back : Bytes} (hps : Separated (.text t :: ps))
    (ht : t.bytes = front ++ back) :
    ∃ qs, Separated qs ∧ written qs = back ++ written ps ∧
      value cleared qs = back ++ value cleared ps := by
  cases hps with
  | text _ hps hnext =>
    by_cases hback : back = []
    · subst hback
      exact ⟨ps, hps, rfl, rfl⟩
    · have hplain : ∀ c ∈ back, isPlain c = true := fun c hc => t.plain c (by simp [ht, hc])
      exact ⟨.text ⟨back, hback, hplain⟩ :: ps, .text _ hps hnext, rfl, rfl⟩

theorem keywords_six : ∀ a ∈ keywords, isString a.2 = true →
    a.1 ++ [six] ++ [six] ∉ keywords.map Prod.fst := by decide

theorem keywords_word : ∀ a ∈ keywords, ∀ b ∈ keywords, a.2 = b.2 → a.1 = b.1 := by
  decide

/-- The other variable that a name and a 6 make. -/
theorem word_six (h : word g ++ [six] ∈ keywords.map Prod.fst) :
    ∃ g', word g' = word g ++ [six] ∧ word g' ++ [six] ∉ keywords.map Prod.fst := by
  obtain ⟨⟨name, k⟩, hmem, rfl⟩ := List.mem_map.mp h
  have hstring : isString k = true := by
    rcases keywords_longer _ (word_mem g) _ hmem rfl (List.prefix_append _ _) with hsame | ⟨-, hk⟩
    · simp at hsame
    · exact hk
  cases k with
  | string g' =>
    have hname : word g' = word g ++ [six] := keywords_word _ (word_mem g') _ hmem rfl
    exact ⟨g', hname, hname ▸ keywords_six _ (word_mem g) rfl⟩
  | int i => cases hstring
  | bool b => cases hstring
  | list l => cases hstring

theorem bounded_reference (hps : Separated ps)
    (ih : ∀ qs, Separated qs → (written qs).length < (written (.reference g :: ps)).length →
      Bounded field qs) : Bounded field (.reference g :: ps) := by
  intro parts y w hparts hreturns
  have hwritten : written (.reference g :: ps) ++ [quote, semicolon] =
      word g ++ (written ps ++ [quote, semicolon]) := List.append_assoc _ _ _
  have hword : 0 < (word g).length := List.length_pos_of_ne_nil (word_ne_nil g)
  have hlength : (written (.reference g :: ps)).length = (word g).length + (written ps).length := by
    simp [written, Piece.written]
  have hvalue : value cleared (.reference g :: ps) = value cleared ps := rfl
  rw [hwritten] at hreturns
  by_cases hsix : (written ps ++ [quote, semicolon]).head? = some six →
      word g ++ [six] ∉ keywords.map Prod.fst
  · rw [Loops.returns_of_inl (advance_word hsix)] at hreturns
    obtain ⟨x, hx, hle, hclear⟩ := ih ps hps (by omega) _ y w (catenated_cleared hparts g) hreturns
    refine ⟨x, hx, hle, fun heq => ⟨fun hhead => hsix ?_, hclear heq⟩⟩
    rw [List.head?_append, hhead]
    rfl
  · obtain ⟨hhead, hname⟩ := Classical.not_imp.mp hsix
    rw [not_not] at hname
    obtain ⟨g', hg', hsix'⟩ := word_six hname
    cases hps with
    | nil => exact absurd hhead (by decide)
    | dollar hps =>
      have heq : backslash = six := Option.some.inj hhead
      exact absurd heq (by decide)
    | reference g'' hps =>
      obtain ⟨letters, hword'', -⟩ := word_letters g''
      rw [written_cons, Piece.written, hword''] at hhead
      have heq : dollarSign = six := Option.some.inj hhead
      exact absurd heq (by decide)
    | text t hps hnext =>
      rename_i ps
      obtain ⟨c, back, hback⟩ := List.exists_cons_of_ne_nil t.nonempty
      have hcut : t.bytes = [c] ++ back := hback
      obtain ⟨qs, hqs, hwrittenqs, hvalueqs⟩ := rest_of_text (.text t hps hnext) hcut
      have hc : c = six := by
        rw [written_cons, Piece.written, hback] at hhead
        exact Option.some.inj hhead
      have hread : word g ++ (written (.text t :: ps) ++ [quote, semicolon]) =
          word g' ++ (written qs ++ [quote, semicolon]) := by
        rw [hg', hwrittenqs, written_cons, Piece.written, hback, hc]
        simp
      rw [hread, Loops.returns_of_inl (advance_word fun _ => hsix')] at hreturns
      have hwrittent : (written (.text t :: ps)).length = 1 + (written qs).length := by
        rw [hwrittenqs, written_cons, Piece.written, hback]
        simp only [List.length_append, List.length_cons]
        omega
      have hvaluet : (value cleared (.text t :: ps)).length = 1 + (value cleared qs).length := by
        rw [hvalueqs, value_cons, Piece.value, hback]
        simp only [List.length_append, List.length_cons]
        omega
      obtain ⟨x, hx, hle, -⟩ := ih qs hqs (by omega) _ y w (catenated_cleared hparts g') hreturns
      rw [hvalue]
      exact ⟨x, hx, by omega, fun heq => by omega⟩

def dropLine (text : Bytes) : Bytes := text.dropWhile fun c => decide (c ≠ lineFeed)

/-- Behind the end of the line there is nothing or the end of the pieces. -/
def LineDropped (ps : List Piece) : Prop :=
  dropLine (written ps ++ [quote, semicolon]) = [] ∨
    ∃ qs, Separated qs ∧
      dropLine (written ps ++ [quote, semicolon]) = written qs ++ [quote, semicolon] ∧
      (value cleared qs).length ≤ (value cleared ps).length ∧
      (written qs).length ≤ (written ps).length

theorem lineDropped_cons {p : Piece} (hp : lineFeed ∉ p.written) (h : LineDropped ps) :
    LineDropped (p :: ps) := by
  have hline : dropLine (written (p :: ps) ++ [quote, semicolon]) =
      dropLine (written ps ++ [quote, semicolon]) := by
    rw [written_cons, List.append_assoc]
    refine List.dropWhile_append_of_pos fun c hc => decide_eq_true ?_
    rintro rfl
    exact hp hc
  rw [LineDropped, hline]
  refine h.imp_right ?_
  rintro ⟨qs, hqs, heq, hvalue, hwritten⟩
  refine ⟨qs, hqs, heq, ?_, ?_⟩
  · rw [value_cons, List.length_append]
    exact Nat.le_trans hvalue (Nat.le_add_left _ _)
  · rw [written_cons, List.length_append]
    exact Nat.le_trans hwritten (Nat.le_add_left _ _)

theorem lineDropped (hps : Separated ps) : LineDropped ps := by
  induction hps with
  | nil => exact .inl (by decide)
  | dollar hps ih => exact lineDropped_cons (by decide) ih
  | reference g hps ih =>
    exact lineDropped_cons (keywords_shape _ (word_mem g) rfl).2.2.2 ih
  | text t hps hnext ih =>
    rename_i ps
    by_cases hline : lineFeed ∈ t.bytes
    · have hfeed : ∃ c ∈ t.bytes, decide (c = lineFeed) = true := ⟨lineFeed, hline, by simp⟩
      obtain ⟨front, c, back, hcut, hc, hfront⟩ := TextLines.split_first hfeed
      obtain ⟨qs, hqs, hwritten, hvalue⟩ := rest_of_text (.text t hps hnext) hcut
      refine .inr ⟨qs, hqs, ?_, ?_, ?_⟩
      · rw [hwritten, written_cons, Piece.written, hcut, List.append_assoc, List.append_assoc,
          dropLine, List.dropWhile_append_of_pos]
        · rw [List.cons_append, List.dropWhile_cons_of_neg (by simpa using hc)]
          simp
        · intro d hd
          simpa using hfront d hd
      · rw [hvalue, value_cons, Piece.value, hcut]
        simp only [List.length_append]
        omega
      · rw [hwritten, written_cons, Piece.written, hcut]
        simp only [List.length_append]
        omega
    · exact lineDropped_cons hline ih

def isList : Keyword → Bool
  | .list _ => true
  | _ => false

theorem keywords_list : ∀ a ∈ keywords, a.1.head? = some dollarSign ∨ isList a.2 = true := by
  decide

/-- The tokens of the rivals do not belong in a string. -/
theorem rival_rejected {r : Rule} {text : Bytes} (hr : r ∈ rivals)
    (hfits : Matches r.pattern t.bytes) (hne : text ≠ [])
    (hscan : scan ⟨.ss, .pv⟩ text =
      ((r.action t.bytes ⟨.ss, .pv⟩).1, (r.action t.bytes ⟨.ss, .pv⟩).2, rest)) :
    advance (inString field parts v text) = .inr (.rejected v) := by
  rcases List.mem_append.mp hr with hkeyword | hr
  · obtain ⟨⟨name, k⟩, hmem, rfl⟩ := List.mem_map.mp hkeyword
    have hname : t.bytes = name := matches_literal.mp hfits
    have hlist : name.head? = some dollarSign ∨ isList k = true := keywords_list _ hmem
    rcases hlist with hdollar | hlist
    · rw [← hname] at hdollar
      have hplain := t.plain dollarSign (List.mem_of_mem_head? hdollar)
      exact absurd hplain (by decide)
    · cases k with
      | list l => exact advance_error hne hscan rfl
      | string g => cases hlist
      | int i => cases hlist
      | bool b => cases hlist
  · simp only [List.mem_cons, List.not_mem_nil, or_false] at hr
    rcases hr with rfl | rfl | rfl | rfl | rfl | rfl
    · exact advance_exit hne hscan
    all_goals exact advance_error hne hscan rfl

/-- A file that ends in a string is not accepted. -/
theorem unclosed_rejected (w : Values) :
    ¬ Loops.Returns advance (inString field parts v []) (.accepted w) := by
  intro h
  have hend : advance (inString field parts v []) = .inr (.rejected v) := rfl
  cases (Loops.returns_of_inr hend).mp h

theorem bounded_text (hps : Separated (.text t :: ps))
    (ih : ∀ qs, Separated qs → (written qs).length < (written (.text t :: ps)).length →
      Bounded field qs) : Bounded field (.text t :: ps) := by
  intro parts y w hparts hreturns
  have hpos : 0 < t.bytes.length := List.length_pos_iff.mpr t.nonempty
  have htext : written (.text t :: ps) ++ [quote, semicolon] =
      t.bytes ++ (written ps ++ [quote, semicolon]) := List.append_assoc _ _ _
  have hwritten : (written (.text t :: ps)).length = t.bytes.length + (written ps).length := by
    rw [written_cons, List.length_append, Piece.written]
  have hvalue : (value cleared (.text t :: ps)).length =
      t.bytes.length + (value cleared ps).length := by
    rw [value_cons, List.length_append, Piece.value]
  have hne : t.bytes ++ (written ps ++ [quote, semicolon]) ≠ [] := by simp [t.nonempty]
  cases hps with
  | text _ hps hnext =>
    have hstop := stop_written hnext
    rw [htext] at hreturns
    by_cases hline : t.bytes.head? = some hash → lineFeed ∈ t.bytes
    · by_cases hrival : ∃ r ∈ rivals, Matches r.pattern t.bytes
      · obtain ⟨r, hr, hfits, hscan⟩ := scan_rival t.plain t.nonempty hstop hrival hline
        cases (Loops.returns_of_inr (rival_rejected hr hfits hne hscan)).mp hreturns
      · have hrivals : ∀ r ∈ rivals, ¬ Matches r.pattern t.bytes :=
          fun r hr hfits => hrival ⟨r, hr, hfits⟩
        rw [Loops.returns_of_inl (advance_text hstop hrivals hline)] at hreturns
        obtain ⟨x, hx, hle, hclear⟩ :=
          ih ps hps (by omega) _ _ w (catenated_text hparts _) hreturns
        have hcstr : cstr t.bytes <+: t.bytes := List.takeWhile_prefix _
        have hshort := hcstr.length_le
        rw [List.length_append] at hle hclear
        refine ⟨x, hx, by omega, fun heq => ⟨⟨hrivals, hline, fun h0 => ?_⟩, hclear (by omega)⟩⟩
        have hwhole : cstr t.bytes = t.bytes := hcstr.eq_of_length (by omega)
        rw [← hwhole, cstr] at h0
        simpa using List.mem_takeWhile_imp h0
    · obtain ⟨hhash, hfeed⟩ := Classical.not_imp.mp hline
      have hcomment : advance (inString field parts cleared
          (t.bytes ++ (written ps ++ [quote, semicolon]))) =
            .inl (inString field parts cleared (dropLine (written ps ++ [quote, semicolon]))) :=
        advance_next hne (scan_comment t.plain hhash hfeed hstop)
      rw [Loops.returns_of_inl hcomment] at hreturns
      rcases lineDropped hps with hnone | ⟨qs, hqs, heq, hvalueqs, hwrittenqs⟩
      · rw [hnone] at hreturns
        exact absurd hreturns (unclosed_rejected w)
      · rw [heq] at hreturns
        obtain ⟨x, hx, hle, -⟩ := ih qs hqs (by omega) _ y w hparts hreturns
        exact ⟨x, hx, by omega, fun _ => by omega⟩

theorem bounded (hps : Separated ps) : Bounded field ps := by
  induction hn : (written ps).length using Nat.strongRecOn generalizing ps with
  | ind n ih =>
    have ih' : ∀ qs, Separated qs → (written qs).length < (written ps).length →
        Bounded field qs := fun qs hqs hlt => ih _ (hn ▸ hlt) hqs rfl
    cases hps with
    | nil => exact bounded_nil field
    | dollar hps =>
      refine bounded_dollar (ih' _ hps ?_)
      rw [written_cons, List.length_append]
      exact Nat.lt_add_of_pos_left (by decide)
    | reference g hps => exact bounded_reference hps ih'
    | text t hps hnext => exact bounded_text (.text t hps hnext) ih'

theorem clear_of_meansItself (h : MeansItself field ps) : Clear (joined ps) := by
  have hreturns := h cleared fun _ _ => by simp [cleared]
  rw [Yyparse, setting_starts, ← written_joined, ← value_joined] at hreturns
  obtain ⟨x, hx, -, hclear⟩ := bounded (joined_separated ps) [] [] _ rfl hreturns
  refine hclear ?_
  have hstored : (cleared.setString field (value cleared (joined ps))).strings field =
      some (value cleared (joined ps)) := Function.update_self _ _ _
  obtain rfl := Option.some.inj (hstored.symm.trans hx)
  rw [List.length_nil, Nat.zero_add]

/-- A string means itself unless another rule of the scanner takes part of it. -/
theorem meansItself_iff (field : StringField) (ps : List Piece) :
    MeansItself field ps ↔ Clear (joined ps) :=
  ⟨clear_of_meansItself, meansItself_of_clear⟩

/-- A network that is called no. -/
def noText : Text := ⟨ascii "no", by decide, by decide⟩

theorem no_rejected :
    setting .networkname [.text noText] = ascii "$networkname = \"no\";" ∧
      Yyparse cleared (setting .networkname [.text noText]) (.rejected cleared) ∧
      ¬ MeansItself .networkname [.text noText] := by
  have hrival : Rule.noWord ∈ rivals := by decide
  have hfits : Matches (Rule.pattern .noWord) noText.bytes := matches_anyCase.mpr (by decide)
  refine ⟨by decide, ?_, fun h => ?_⟩
  · have hrejected :
        advance (inString .networkname [] cleared (noText.bytes ++ [quote, semicolon])) =
          .inr (.rejected cleared) := by
      have hstop : Stop [quote, semicolon] := ⟨⟨quote, rfl, by decide⟩, by decide⟩
      obtain ⟨r, hr, hr', hscan⟩ :=
        scan_rival noText.plain noText.nonempty hstop ⟨_, hrival, hfits⟩ (by decide)
      exact rival_rejected hr hr' (by simp) hscan
    rw [Yyparse, setting_starts]
    exact (Loops.returns_of_inr hrejected).mpr rfl
  · exact (clear_of_meansItself h).1.noToken _ hrival hfits

end ChaosVpn.ConfigStrings
