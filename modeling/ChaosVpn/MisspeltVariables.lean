import ChaosVpn.ConfigStrings

/-! Settings of variables that are not declared. The rule that should stop the program at them
never matches, so a name is read as far as a declared one goes, and the rest character by
character. -/

namespace ChaosVpn.MisspeltVariables
open CStrings ConfigLexer ConfigGrammar ConfigStrings LongestMatch

/-- A string setting and a list setting with a name. -/
def scalarSetting (w : Bytes) : Bytes :=
  dollarSign :: (w ++ (ascii " = " ++ quote :: (ascii "x" ++ [quote, semicolon])))

def listSetting (w : Bytes) : Bytes :=
  atSign :: (w ++ (ascii " = " ++ [leftParen, rightParen, semicolon]))

/-- A file with the setting in the place of one ends the program, with all values as before. -/
def Rejects (setting : Bytes) : Prop :=
  ∀ v file m more, Loops.Reaches advance (opened v file) m → m.parsing = .config →
    m.text = setting ++ more → Yyparse v file (.rejected m.values)

def ContainsWord (text : Bytes) : Prop := ∃ word ∈ words, word <:+: text

/-- The longest declared name that a text begins with. -/
structure LongestKeyword (text : Bytes) (keyword : Bytes × Keyword) (rest : Bytes) : Prop where
  declared : keyword ∈ keywords
  text_eq : text = keyword.1 ++ rest
  longest : ∀ other ∈ keywords, other.1 <+: text → other.1.length ≤ keyword.1.length

/-- A name that a string or list variable begins goes on with a word that is a token. -/
def Noticed (w : Bytes) : Prop :=
  (∀ keyword rest, LongestKeyword (dollarSign :: w) keyword rest → isString keyword.2 = true →
    ContainsWord rest) ∧
  ∀ keyword rest, LongestKeyword (atSign :: w) keyword rest → ContainsWord rest

/-! The start condition belongs to what is being read -/

def Moves (s : Scanner) (action : Action) (s' : Scanner) : Prop :=
  match action with
  | .returns .assignment => s' = { s with start := .pv }
  | .returns .stringmarker =>
    (s.start = .pv ∨ s.start = .ll) ∧ s' = ⟨.ss, s.start⟩ ∨
      s.start = .ss ∧ s' = { s with start := s.stringcaller }
  | .returns .listopen => s' = { s with start := .ll }
  | .returns .listclose => s' = { s with start := .initial }
  | _ => s' = s

theorem scan_moves (s : Scanner) (text : Bytes) :
    Moves s (scan s text).1 (scan s text).2.1 := by
  cases hselect : select Rule.pattern (activeRules s.start) text with
  | none =>
    simp only [scan, hselect]
    exact rfl
  | some best =>
    obtain ⟨n, r⟩ := best
    have hactive := (List.mem_filter.mp (select_matches hselect).1).2
    simp only [scan, hselect]
    cases r with
    | stringOpen =>
      have hstart : s.start = .pv := by simpa [Rule.start, eq_comm] using hactive
      exact .inl ⟨.inl hstart, rfl⟩
    | listString =>
      have hstart : s.start = .ll := by simpa [Rule.start, eq_comm] using hactive
      exact .inl ⟨.inr hstart, rfl⟩
    | stringClose =>
      have hstart : s.start = .ss := by simpa [Rule.start, eq_comm] using hactive
      exact .inr ⟨hstart, rfl⟩
    | _ => exact rfl

def Consistent (m : Reading) : Prop :=
  match m.parsing with
  | .config | .keyword _ | .setting => m.scanner.start = .initial ∨ m.scanner.start = .pv
  | .assigned _ => m.scanner.start = .pv
  | .string _ _ => m.scanner = ⟨.ss, .pv⟩
  | .list _ _ | .listEntry _ _ => m.scanner.start = .ll
  | .listString _ _ _ => m.scanner = ⟨.ss, .ll⟩

theorem shift_consistent {s s' : Scanner} {v v' : Values} {p p' : Parsing} {token : Token}
    {text text' : Bytes} (h : Consistent ⟨s, p, v, text⟩) (hmoves : Moves s (.returns token) s')
    (hshift : shift v p token = some (p', v')) : Consistent ⟨s', p', v', text'⟩ := by
  unfold shift at hshift
  split at hshift
  all_goals
    first
      | cases hshift
      | obtain ⟨x, -, heq⟩ := Option.map_eq_some_iff.mp hshift
        cases heq
  all_goals simp_all [Consistent, Moves]

theorem advance_consistent {m m' : Reading} (h : Consistent m) (hadvance : advance m = .inl m') :
    Consistent m' := by
  obtain ⟨s, p, v, text⟩ := m
  have hmoves := scan_moves s text
  cases text with
  | nil => cases p <;> cases hadvance
  | cons c text =>
    simp only [advance] at hadvance
    split at hadvance
    · rename_i s' rest hscan
      rw [hscan] at hmoves
      obtain rfl : s' = s := hmoves
      rw [← Sum.inl.inj hadvance]
      exact h
    · cases hadvance
    · rename_i token s' rest hscan
      rw [hscan] at hmoves
      split at hadvance
      · rename_i hshift
        rw [← Sum.inl.inj hadvance]
        exact shift_consistent h hmoves hshift
      · cases hadvance

theorem reaches_consistent {v : Values} {file : Bytes} {m : Reading}
    (h : Loops.Reaches advance (opened v file) m) : Consistent m := by
  induction h with
  | refl => exact .inl rfl
  | round _ hadvance ih => exact advance_consistent ih hadvance

/-! The rest of a name behind what has been read of it -/

variable {s : Scanner} {p : Parsing} {v : Values} {w rest tail : Bytes}

/-- It is skipped, or ends the program at a word or a number in it. -/
theorem rest_read (hstart : s.start = .initial ∨ s.start = .pv)
    (hp : ∀ token, Token.isValue token = true → shift v p token = none)
    (hname : ∀ c ∈ rest, isNameChar c = true) (tail : Bytes) :
    Loops.Returns advance ⟨s, p, v, rest ++ tail⟩ (.rejected v) ∨
      Loops.Reaches advance ⟨s, p, v, rest ++ tail⟩ ⟨s, p, v, tail⟩ ∧ ¬ ContainsWord rest := by
  induction rest with
  | nil =>
    refine .inr ⟨.refl, ?_⟩
    rintro ⟨word, hword, hinfix⟩
    obtain rfl := List.infix_nil.mp hinfix
    exact absurd hword (by decide)
  | cons c rest ih =>
    obtain ⟨hc, hname⟩ := List.forall_mem_cons.mp hname
    rcases scan_name hstart hc (rest ++ tail) with
      ⟨hscan, hnone⟩ | ⟨⟨token, s', back, hscan, hvalue⟩, -⟩
    · have hadvance : advance ⟨s, p, v, c :: (rest ++ tail)⟩ = .inl ⟨s, p, v, rest ++ tail⟩ :=
        advance_next (List.cons_ne_nil _ _) hscan
      rcases ih hname with hreturns | ⟨hreaches, hwords⟩
      · exact .inl ((Loops.returns_of_inl hadvance).mpr hreturns)
      · refine .inr ⟨hreaches.head hadvance, ?_⟩
        rintro ⟨word, hword, hinfix⟩
        rcases List.infix_cons_iff.mp hinfix with hbegins | hinfix
        · exact hnone word hword (List.prefix_append_of_prefix hbegins)
        · exact hwords ⟨word, hword, hinfix⟩
    · have hadvance : advance ⟨s, p, v, c :: (rest ++ tail)⟩ = .inr (.rejected v) :=
        advance_error (List.cons_ne_nil _ _) hscan (hp token hvalue)
      exact .inl ((Loops.returns_of_inr hadvance).mpr rfl)

theorem lower_name : ∀ c, isNameChar c = true → toLower c = c :=
  forall_byte (P := fun c => isNameChar c = true → toLower c = c) (by decide +kernel)

/-- At the start of a file numbers are skipped as well. -/
theorem rest_skipped (hstart : s.start = .initial) (hname : ∀ c ∈ rest, isNameChar c = true)
    (hwords : ¬ ContainsWord rest) (htail : ∀ c, tail.head? = some c → c = space) :
    Loops.Reaches advance ⟨s, p, v, rest ++ tail⟩ ⟨s, p, v, tail⟩ := by
  induction rest with
  | nil => exact .refl
  | cons c rest ih =>
    obtain ⟨hc, hname'⟩ := List.forall_mem_cons.mp hname
    rcases scan_name (.inl hstart) hc (rest ++ tail) with ⟨hscan, -⟩ | ⟨-, hword⟩
    · have hadvance : advance ⟨s, p, v, c :: (rest ++ tail)⟩ = .inl ⟨s, p, v, rest ++ tail⟩ :=
        advance_next (List.cons_ne_nil _ _) hscan
      refine (ih hname' fun h => hwords ?_).head hadvance
      obtain ⟨word, hword, hinfix⟩ := h
      exact ⟨word, hword, List.infix_cons_iff.mpr (.inr hinfix)⟩
    · obtain ⟨front, hbegins, hlower⟩ := hword hstart
      have hspaces : ∀ word ∈ words, space ∉ word := by decide
      have hkind : ∀ d ∈ front, decide (d ≠ space) = true := by
        intro d hd
        rw [decide_eq_true_eq]
        rintro rfl
        exact hspaces _ hlower (List.mem_map_of_mem hd)
      rw [← List.cons_append] at hbegins
      have hinside := prefix_of_kind hbegins hkind fun d hd => by simp [htail d hd]
      have hsame : front.map toLower = front := by
        refine (List.map_congr_left fun d hd => ?_).trans (List.map_id front)
        exact lower_name d (hname d (hinside.subset hd))
      exact absurd ⟨front, hsame ▸ hlower, hinside.isInfix⟩ hwords

/-! The whole setting -/

theorem ascii_assign : ascii " = " = [space, equals, space] := by decide

theorem keywords_noSpace : ∀ keyword ∈ keywords, ∀ c ∈ keyword.1, c ≠ space := by decide

theorem candidates_sign (hstart : s.start = .initial ∨ s.start = .pv) :
    candidates s.start dollarSign = [] ∧ candidates s.start atSign = [] := by
  rcases hstart with h | h
  · rw [h]
    decide
  · rw [h]
    decide

/-- Declared names do not reach over the blank behind the name. -/
theorem inside_name {text : Bytes} {keyword : Bytes × Keyword} (hmem : keyword ∈ keywords)
    (h : keyword.1 <+: text ++ (ascii " = " ++ tail)) : keyword.1 <+: text := by
  have hkind : ∀ c ∈ keyword.1, decide (c ≠ space) = true :=
    fun c hc => decide_eq_true (keywords_noSpace keyword hmem c hc)
  refine prefix_of_kind h hkind fun c hc => ?_
  rw [ascii_assign] at hc
  rw [← Option.some.inj hc]
  decide

/-- A name that no declared one begins, or the longest one that does. -/
theorem sign_read {sign : UInt8} (hcandidates : candidates s.start sign = []) (w tail : Bytes) :
    Loops.Reaches advance ⟨s, .config, v, sign :: (w ++ (ascii " = " ++ tail))⟩
        ⟨s, .config, v, w ++ (ascii " = " ++ tail)⟩ ∨
      ∃ keyword rest, LongestKeyword (sign :: w) keyword rest ∧
        Loops.Reaches advance ⟨s, .config, v, sign :: (w ++ (ascii " = " ++ tail))⟩
          ⟨s, .keyword keyword.2, v, rest ++ (ascii " = " ++ tail)⟩ := by
  rcases scan_sign hcandidates (w ++ (ascii " = " ++ tail)) with
    ⟨-, hscan⟩ | ⟨keyword, hmem, back, htext, hlongest, hscan⟩
  · exact .inl (.round .refl (advance_next (List.cons_ne_nil _ _) hscan))
  · right
    have hbegins : keyword.1 <+: sign :: w ++ (ascii " = " ++ tail) := ⟨back, htext.symm⟩
    obtain ⟨rest, hrest⟩ := inside_name hmem hbegins
    have hback : back = rest ++ (ascii " = " ++ tail) := by
      refine List.append_cancel_left (htext.symm.trans ?_)
      rw [← List.append_assoc keyword.1, hrest, List.cons_append]
    subst hback
    refine ⟨keyword, rest, ⟨hmem, hrest.symm, fun other hother h => ?_⟩,
      .round .refl (advance_token (List.cons_ne_nil _ _) hscan rfl)⟩
    exact hlongest other hother (h.trans (List.prefix_append _ _))

/-- Behind the name comes the assignment. -/
theorem assign_read (hstart : s.start = .initial ∨ s.start = .pv) {k : Keyword}
    (htail : ∀ c, tail.head? = some c → isBlank c = false ∧ c ≠ equals) :
    Loops.Reaches advance ⟨s, .keyword k, v, ascii " = " ++ tail⟩
      ⟨{ s with start := .pv }, .assigned k, v, tail⟩ :=
  .round .refl (advance_token (by simp [ascii_assign]) (scan_assign hstart htail) rfl)

theorem LongestKeyword.rest_name {sign : UInt8} {keyword : Bytes × Keyword}
    (h : LongestKeyword (sign :: w) keyword rest) (hname : ∀ c ∈ w, isNameChar c = true) :
    ∀ c ∈ rest, isNameChar c = true := by
  obtain ⟨name, k⟩ := keyword
  have htext : sign :: w = name ++ rest := h.text_eq
  cases name with
  | nil => exact absurd (keywords_head _ h.declared) (by simp)
  | cons d name =>
    obtain ⟨-, rfl⟩ := List.cons.inj htext
    exact fun c hc => hname c (List.mem_append_right _ hc)

theorem LongestKeyword.list_name {keyword : Bytes × Keyword}
    (h : LongestKeyword (atSign :: w) keyword rest) : isList keyword.2 = true := by
  refine (keywords_list keyword h.declared).resolve_left fun hdollar => ?_
  obtain ⟨letters, hletters⟩ := List.head?_eq_some_iff.mp hdollar
  have hfirst := h.text_eq
  rw [hletters, List.cons_append] at hfirst
  exact absurd (List.cons.inj hfirst).1 (by decide)

/-- Unless a declared name makes something else of it, the setting is an error. -/
theorem setting_rejected {sign : UInt8} (hstart : s.start = .initial ∨ s.start = .pv)
    (hcandidates : candidates s.start sign = []) (hname : ∀ c ∈ w, isNameChar c = true)
    (htail : ∀ c, tail.head? = some c → isBlank c = false ∧ c ≠ equals)
    (hkeyword : ∀ keyword rest, LongestKeyword (sign :: w) keyword rest → ContainsWord rest ∨
      Loops.Returns advance ⟨{ s with start := .pv }, .assigned keyword.2, v, tail⟩ (.rejected v)) :
    Loops.Returns advance ⟨s, .config, v, sign :: (w ++ (ascii " = " ++ tail))⟩ (.rejected v) := by
  rcases sign_read hcandidates w tail with hreaches | ⟨keyword, rest, hlongest, hreaches⟩
  · refine hreaches.returns.mpr ?_
    have hvalues : ∀ token, Token.isValue token = true → shift v .config token = none := by
      intro token htoken
      cases token <;> first | rfl | cases htoken
    rcases rest_read hstart hvalues hname (ascii " = " ++ tail) with hreturns | ⟨hreaches', -⟩
    · exact hreturns
    · refine hreaches'.returns.mpr ((Loops.returns_of_inr ?_).mpr rfl)
      exact advance_error (by simp [ascii_assign]) (scan_assign hstart htail) rfl
  · refine hreaches.returns.mpr ?_
    have hvalues : ∀ token, Token.isValue token = true →
        shift v (.keyword keyword.2) token = none := by
      intro token htoken
      cases token <;> first | rfl | cases htoken
    rcases rest_read hstart hvalues (hlongest.rest_name hname) (ascii " = " ++ tail) with
      hreturns | ⟨hreaches', hwords⟩
    · exact hreturns
    · refine hreaches'.returns.mpr ((assign_read hstart htail).returns.mpr ?_)
      exact (hkeyword keyword rest hlongest).resolve_left hwords

theorem quote_ends {text : Bytes} :
    ∀ c, (quote :: text).head? = some c → isBlank c = false ∧ c ≠ equals := by
  intro c hc
  rw [← Option.some.inj hc]
  decide

theorem paren_ends {text : Bytes} :
    ∀ c, (leftParen :: text).head? = some c → isBlank c = false ∧ c ≠ equals := by
  intro c hc
  rw [← Option.some.inj hc]
  decide

/-- A setting is an error wherever one can stand if it is one in both start conditions. -/
theorem rejects_of {setting : Bytes}
    (h : ∀ s values more, s.start = .initial ∨ s.start = .pv →
      Loops.Returns advance ⟨s, .config, values, setting ++ more⟩ (.rejected values)) :
    Rejects setting := by
  intro v file m more hreach hconfig htext
  obtain ⟨s, p, values, text⟩ := m
  dsimp only at hconfig htext
  subst hconfig
  subst htext
  exact hreach.returns.mpr (h s values more (reaches_consistent hreach))

theorem rejects_scalar (hname : ∀ c ∈ w, isNameChar c = true)
    (h : ∀ keyword rest, LongestKeyword (dollarSign :: w) keyword rest →
      isString keyword.2 = true → ContainsWord rest) : Rejects (scalarSetting w) := by
  refine rejects_of fun s values more hstart => ?_
  have hsplit : scalarSetting w ++ more = dollarSign ::
      (w ++ (ascii " = " ++ (quote :: (ascii "x" ++ [quote, semicolon] ++ more)))) := by
    rw [scalarSetting]
    simp
  rw [hsplit]
  refine setting_rejected hstart (candidates_sign hstart).1 hname quote_ends
    fun keyword rest hlongest => ?_
  by_cases hstring : isString keyword.2 = true
  · exact .inl (h keyword rest hlongest hstring)
  · refine .inr ((Loops.returns_of_inr ?_).mpr rfl)
    refine advance_error (List.cons_ne_nil _ _) (scan_stringOpen _ _) ?_
    obtain ⟨name, k⟩ := keyword
    cases k with
    | string field => exact absurd rfl hstring
    | int field => rfl
    | bool field => rfl
    | list field => rfl

theorem rejects_list (hname : ∀ c ∈ w, isNameChar c = true)
    (h : ∀ keyword rest, LongestKeyword (atSign :: w) keyword rest → ContainsWord rest) :
    Rejects (listSetting w) := by
  refine rejects_of fun s values more hstart => ?_
  have hsplit : listSetting w ++ more = atSign ::
      (w ++ (ascii " = " ++ (leftParen :: ([rightParen, semicolon] ++ more)))) := by
    rw [listSetting]
    simp
  rw [hsplit]
  exact setting_rejected hstart (candidates_sign hstart).2 hname paren_ends
    fun keyword rest hlongest => .inl (h keyword rest hlongest)

/-- At the start of a file, where nothing in the rest of the name is a token. -/
theorem setting_assigned {sign : UInt8} {keyword : Bytes × Keyword}
    (hsign : sign = dollarSign ∨ sign = atSign) (hname : ∀ c ∈ w, isNameChar c = true)
    (h : LongestKeyword (sign :: w) keyword rest) (hwords : ¬ ContainsWord rest)
    (htail : ∀ c, tail.head? = some c → isBlank c = false ∧ c ≠ equals) :
    Loops.Reaches advance (opened v (sign :: (w ++ (ascii " = " ++ tail))))
      ⟨⟨.pv, .initial⟩, .assigned keyword.2, v, tail⟩ := by
  have hcandidates : candidates .initial sign = [] := by
    rcases hsign with rfl | rfl
    · exact (candidates_sign (s := ⟨.initial, .initial⟩) (.inl rfl)).1
    · exact (candidates_sign (s := ⟨.initial, .initial⟩) (.inl rfl)).2
  have htext : sign :: (w ++ (ascii " = " ++ tail)) =
      keyword.1 ++ (rest ++ (ascii " = " ++ tail)) := by
    rw [← List.append_assoc keyword.1, ← h.text_eq, List.cons_append]
  have hne : keyword.1 ++ (rest ++ (ascii " = " ++ tail)) ≠ [] := by
    rw [← htext]
    exact List.cons_ne_nil _ _
  have hhead : ∀ c, keyword.1.head? = some c →
      candidates (Scanner.start ⟨.initial, .initial⟩) c = [] := by
    intro c hc
    obtain ⟨letters, hletters⟩ := List.head?_eq_some_iff.mp hc
    have hfirst := h.text_eq
    rw [hletters, List.cons_append] at hfirst
    rw [← (List.cons.inj hfirst).1]
    exact hcandidates
  have hlongest : ∀ other ∈ keywords, other.1 <+: keyword.1 ++ (rest ++ (ascii " = " ++ tail)) →
      other.1.length ≤ keyword.1.length := by
    intro other hother hbegins
    rw [← List.append_assoc, ← h.text_eq] at hbegins
    exact h.longest other hother (inside_name hother hbegins)
  have hscan := scan_keyword h.declared hhead hlongest
  have hread : Loops.Reaches advance (opened v (sign :: (w ++ (ascii " = " ++ tail))))
      ⟨⟨.initial, .initial⟩, .keyword keyword.2, v, rest ++ (ascii " = " ++ tail)⟩ := by
    rw [htext]
    exact .round .refl (advance_token hne hscan rfl)
  have hblank : ∀ c, (ascii " = " ++ tail).head? = some c → c = space := by
    intro c hc
    rw [ascii_assign] at hc
    exact (Option.some.inj hc).symm
  have hskip : Loops.Reaches advance
      ⟨⟨.initial, .initial⟩, .keyword keyword.2, v, rest ++ (ascii " = " ++ tail)⟩
      ⟨⟨.initial, .initial⟩, .keyword keyword.2, v, ascii " = " ++ tail⟩ :=
    rest_skipped rfl (h.rest_name hname) hwords hblank
  exact (hread.trans hskip).trans (assign_read (.inl rfl) htail)

def xText : Text := ⟨ascii "x", by decide, by decide⟩

theorem xText_clear : Clear [.text xText] := by
  refine ⟨⟨fun r hr hfits => ?_, by decide, by decide⟩, trivial⟩
  have hstarts : ∀ r ∈ rivals, canStart r.pattern 120 = false := by decide
  have hx : ascii "x" = [120] := by decide
  have hfits' : Matches r.pattern (ascii "x") := hfits
  rw [hx] at hfits'
  exact absurd hfits'.canStart (by simp [hstarts r hr])

theorem scalar_accepted {name : Bytes} {field : StringField}
    (hname : ∀ c ∈ w, isNameChar c = true)
    (h : LongestKeyword (dollarSign :: w) (name, .string field) rest)
    (hwords : ¬ ContainsWord rest) (v : Values) :
    Yyparse v (scalarSetting w) (.accepted (v.setString field (ascii "x"))) := by
  have hassigned : Loops.Reaches advance (opened v (scalarSetting w)) ⟨⟨.pv, .initial⟩,
      .assigned (.string field), v, quote :: (ascii "x" ++ [quote, semicolon])⟩ :=
    setting_assigned (.inl rfl) hname h hwords quote_ends
  refine hassigned.returns.mpr ?_
  have hquote : advance ⟨⟨.pv, .initial⟩, .assigned (.string field), v,
      quote :: (ascii "x" ++ [quote, semicolon])⟩ =
        .inl (inString field [] v (ascii "x" ++ [quote, semicolon])) :=
    advance_token (List.cons_ne_nil _ _) (scan_stringOpen _ _) rfl
  have hwritten : ascii "x" ++ [quote, semicolon] =
      written [.text xText] ++ [quote, semicolon] := by decide
  have hparts : catenated v ([] ++ [Piece.text xText].map Piece.part) = some (ascii "x") := by
    simp [catenated, Piece.part, xText]
  rw [Loops.returns_of_inl hquote, hwritten,
    clear_reads (.text _ .nil (by simp)) xText_clear, setting_ends hparts]

theorem list_accepted {name : Bytes} {field : ListField} (hname : ∀ c ∈ w, isNameChar c = true)
    (h : LongestKeyword (atSign :: w) (name, .list field) rest) (hwords : ¬ ContainsWord rest)
    (v : Values) : Yyparse v (listSetting w) (.accepted (v.setList field [])) := by
  have hassigned : Loops.Reaches advance (opened v (listSetting w)) ⟨⟨.pv, .initial⟩,
      .assigned (.list field), v, [leftParen, rightParen, semicolon]⟩ :=
    setting_assigned (.inr rfl) hname h hwords paren_ends
  refine hassigned.returns.mpr ?_
  have hopen : advance ⟨⟨.pv, .initial⟩, .assigned (.list field), v,
      [leftParen, rightParen, semicolon]⟩ =
        .inl ⟨⟨.ll, .initial⟩, .list field [], v, [rightParen, semicolon]⟩ :=
    advance_token (List.cons_ne_nil _ _) (scan_listOpen _ _) rfl
  have hclose : advance ⟨⟨.ll, .initial⟩, .list field [], v, [rightParen, semicolon]⟩ =
      .inl ⟨⟨.initial, .initial⟩, .setting, v.setList field [], [semicolon]⟩ :=
    advance_token (List.cons_ne_nil _ _) (scan_listClose _ _) rfl
  have hseparator : advance ⟨⟨.initial, .initial⟩, .setting, v.setList field [], [semicolon]⟩ =
      .inl ⟨⟨.initial, .initial⟩, .config, v.setList field [], []⟩ :=
    advance_token (List.cons_ne_nil _ _) (scan_separator (by decide) []) rfl
  have hend : advance ⟨⟨.initial, .initial⟩, .config, v.setList field [], []⟩ =
      .inr (.accepted (v.setList field [])) := rfl
  rw [Loops.returns_of_inl hopen, Loops.returns_of_inl hclose, Loops.returns_of_inl hseparator,
    Loops.returns_of_inr hend]

/-- A file of a rejected setting alone is not accepted. -/
theorem Rejects.alone {setting : Bytes} {v v' : Values} (h : Rejects setting)
    (haccepted : Yyparse v setting (.accepted v')) : False := by
  have hrejected := h v setting (opened v setting) [] .refl rfl (List.append_nil setting).symm
  cases haccepted.unique hrejected

/-- A misspelt variable is rejected unless a declared one begins it and no word is left. -/
theorem rejects_iff (w : Bytes) (hname : ∀ c ∈ w, isNameChar c = true) :
    Rejects (scalarSetting w) ∧ Rejects (listSetting w) ↔ Noticed w := by
  constructor
  · rintro ⟨hscalar, hlist⟩
    refine ⟨fun keyword rest hlongest hstring => ?_, fun keyword rest hlongest => ?_⟩
    · by_contra hwords
      obtain ⟨name, k⟩ := keyword
      cases k with
      | string field =>
        exact hscalar.alone (scalar_accepted hname hlongest hwords ConfigStrings.cleared)
      | int field => cases hstring
      | bool field => cases hstring
      | list field => cases hstring
    · by_contra hwords
      have hlist' := hlongest.list_name
      obtain ⟨name, k⟩ := keyword
      cases k with
      | list field =>
        exact hlist.alone (list_accepted hname hlongest hwords ConfigStrings.cleared)
      | string field => cases hlist'
      | int field => cases hlist'
      | bool field => cases hlist'
  · rintro ⟨hscalar, hlist⟩
    exact ⟨rejects_scalar hname hscalar, rejects_list hname hlist⟩

theorem vpn_ip_rejected :
    Rejects (scalarSetting (ascii "vpn_ip")) ∧ Rejects (listSetting (ascii "vpn_ip")) := by
  have hnone : ∀ keyword ∈ keywords, ¬ keyword.1 <+: dollarSign :: ascii "vpn_ip" ∧
      ¬ keyword.1 <+: atSign :: ascii "vpn_ip" := by decide
  refine (rejects_iff (ascii "vpn_ip") (by decide)).mpr
    ⟨fun keyword rest hlongest => ?_, fun keyword rest hlongest => ?_⟩
  · exact absurd ⟨rest, hlongest.text_eq.symm⟩ (hnone keyword hlongest.declared).1
  · exact absurd ⟨rest, hlongest.text_eq.symm⟩ (hnone keyword hlongest.declared).2

/-- The variable is called base, and is set when base_path is meant to be. -/
theorem base_path_assigned :
    dollarSign :: ascii "base_path" ∉ keywords.map Prod.fst ∧
      atSign :: ascii "base_path" ∉ keywords.map Prod.fst ∧
      scalarSetting (ascii "base_path") = ascii "$base_path = \"x\";" ∧
      Yyparse cleared (scalarSetting (ascii "base_path"))
        (.accepted (cleared.setString .basePath (ascii "x"))) ∧
      ¬ (Rejects (scalarSetting (ascii "base_path")) ∧
        Rejects (listSetting (ascii "base_path"))) := by
  have hlongest : LongestKeyword (dollarSign :: ascii "base_path")
      (ascii "$base", .string .basePath) (ascii "_path") :=
    ⟨by decide, by decide, by decide⟩
  have hwords : ¬ ContainsWord (ascii "_path") := by
    rintro ⟨word, hword, hinfix⟩
    have hnone : ∀ word ∈ words, ¬ word <:+: ascii "_path" := by decide
    exact hnone word hword hinfix
  have haccepted := scalar_accepted (by decide) hlongest hwords cleared
  exact ⟨by decide, by decide, by decide, haccepted,
    fun h => h.1.alone haccepted⟩

end ChaosVpn.MisspeltVariables
