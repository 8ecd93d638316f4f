import ChaosVpn.ConfigStrings

/-! The tokens of the configuration file outside of its strings, each up to a text that it does
not go on with, and the gaps between them. -/

namespace ChaosVpn.ConfigTokens
open CStrings ConfigLexer ConfigGrammar ConfigStrings LongestMatch

/-- What can stand behind blanks and assignments. -/
def Next (rest : Bytes) : Prop := ∀ c, rest.head? = some c → isBlank c = false ∧ c ≠ equals

/-- A line that is passed over. -/
structure GapLine where
  blanks : Bytes
  comment : Option Bytes
  isBlanks : ∀ c ∈ blanks, isBlank c = true
  oneLine : ∀ text, comment = some text → lineFeed ∉ text

structure Gap where
  lines : List GapLine
  indent : Bytes
  isBlanks : ∀ c ∈ indent, isBlank c = true

def commented : Option Bytes → Bytes
  | none => []
  | some text => hash :: text

def GapLine.written (l : GapLine) : Bytes := l.blanks ++ (commented l.comment ++ [lineFeed])

def Gap.written (g : Gap) : Bytes := g.lines.flatMap GapLine.written ++ g.indent

/-- A run of digits, whatever its value. -/
structure Numeral where
  digits : Bytes
  nonempty : digits ≠ []
  isDigits : ∀ c ∈ digits, isDigit c = true

def Numeral.value (n : Numeral) : Int := atoi n.digits

/-- A word for a truth value, in any case. -/
structure Word where
  text : Bytes
  isWord : text.map toLower ∈ words

def Word.value (w : Word) : Bool :=
  w.text.map toLower = ascii "yes" || w.text.map toLower = ascii "true"

def Word.token (w : Word) : Token :=
  if w.text.map toLower ∈ [ascii "yes", ascii "no"] then .yesnoval w.value else .boolval w.value

variable {s : Scanner} {front rest text : Bytes} {c : UInt8}

/-! Blanks and lines -/

theorem blank_kinds : ∀ c, isBlank c = true → c ≠ dollarSign ∧ c ≠ atSign ∧ c ≠ equals ∧
    isPlain c = true ∧ isDigit c = false ∧ isNameChar c = false ∧
    candidates .initial c = [.assign, .blank] ∧ candidates .pv c = [.assign, .blank] ∧
    candidates .ll c = [.assign, .listBlank, .blank] :=
  forall_byte (P := fun c => isBlank c = true → c ≠ dollarSign ∧ c ≠ atSign ∧ c ≠ equals ∧
    isPlain c = true ∧ isDigit c = false ∧ isNameChar c = false ∧
    candidates .initial c = [.assign, .blank] ∧ candidates .pv c = [.assign, .blank] ∧
    candidates .ll c = [.assign, .listBlank, .blank]) (by decide +kernel)

/-- An assignment has its sign behind blanks. -/
theorem not_assign {other : Bytes} (hfront : ∀ c ∈ front, isBlank c = true) (hrest : Next rest)
    (hother : other <+: front ++ rest) : ¬ Matches (Rule.pattern .assign) other := by
  rintro ⟨blanks, back, rfl, hblanks, c, text, rfl, hc, -⟩
  obtain rfl : c = equals := of_decide_eq_true hc
  have hbegins : blanks <+: front ++ rest := (List.prefix_append blanks _).trans hother
  obtain ⟨more, rfl⟩ := prefix_of_kind hbegins hblanks fun c hc => (hrest c hc).1
  rw [List.append_assoc, List.prefix_append_right_inj] at hother
  obtain ⟨tail, htail⟩ := hother
  cases more with
  | nil =>
    rw [List.nil_append] at htail
    exact (hrest equals (by rw [← htail]; rfl)).2 rfl
  | cons d more =>
    obtain ⟨rfl, -⟩ := List.cons.inj htail
    exact (blank_kinds equals (hfront equals (by simp))).2.2.1 rfl

theorem scan_blanks (hss : s.start ≠ .ss) (hne : front ≠ [])
    (hfront : ∀ c ∈ front, isBlank c = true) (hrest : Next rest) :
    scan s (front ++ rest) = (.next, s, rest) := by
  obtain ⟨c, blanks, rfl⟩ := List.exists_cons_of_ne_nil hne
  obtain ⟨hdollar, hat, -, -, -, -, hinitial, hpv, hll⟩ := blank_kinds c (hfront c (by simp))
  have hassign : ∀ q ∈ [Rule.assign], ∀ other, other <+: c :: blanks ++ rest →
      Matches q.pattern other → other.length < (c :: blanks).length := by
    intro q hq other hother hfits
    obtain rfl := List.mem_singleton.mp hq
    exact absurd hfits (not_assign hfront hrest hother)
  have hblank : ∀ other, other <+: c :: blanks ++ rest → Matches [.many isBlank] other →
      other.length ≤ (c :: blanks).length := by
    rintro other hother hfits
    have hallowed := hfits.allowed
    exact (prefix_of_kind hother (fun d hd => by simpa [allowed] using hallowed d hd)
      fun d hd => (hrest d hd).1).length_le
  cases hstart : s.start with
  | ss => exact absurd hstart hss
  | initial =>
    exact wins_candidates _ hstart hdollar hat (r := .blank) hinitial
      ⟨hne, matches_many hfront, hassign, hblank, by simp⟩
  | pv =>
    exact wins_candidates _ hstart hdollar hat (r := .blank) hpv
      ⟨hne, matches_many hfront, hassign, hblank, by simp⟩
  | ll =>
    refine wins_candidates _ hstart hdollar hat (r := .listBlank) hll
      ⟨hne, matches_many hfront, hassign, hblank, fun q hq => ?_⟩
    obtain rfl := List.mem_singleton.mp hq
    exact hblank

theorem scan_newline (hss : s.start ≠ .ss) (text : Bytes) :
    scan s (lineFeed :: text) = (.next, s, text) := by
  have hcandidates : candidates s.start lineFeed = [.newline] :=
    candidates_outside hss (by decide) (by decide) (by decide)
  exact scan_single _ rfl (by decide) (by decide) hcandidates rfl text

theorem scan_lineComment (hss : s.start ≠ .ss) (hline : lineFeed ∉ text) (rest : Bytes) :
    scan s (hash :: text ++ lineFeed :: rest) = (.next, s, lineFeed :: rest) := by
  have hcandidates : candidates s.start hash = [] ++ .comment :: [] :=
    candidates_outside hss (by decide) (by decide) (by decide)
  refine wins_candidates _ rfl (by decide) (by decide) hcandidates ⟨by simp, ?_, by simp, ?_, by simp⟩
  · refine ⟨hash, text, rfl, by decide, matches_many fun c hc => ?_⟩
    rw [decide_eq_true_eq]
    rintro rfl
    exact hline hc
  · intro other hother hfits
    exact (prefix_of_kind hother (comment_kind hfits) fun c hc => by
      obtain rfl := Option.some.inj hc
      decide).length_le

/-! Single tokens -/

theorem candidates_at (hss : s.start ≠ .ss) : candidates s.start atSign = [] :=
  candidates_outside hss (by decide) (by decide) (by decide)

theorem keywords_names : ∀ keyword ∈ keywords, ∀ c ∈ keyword.1.tail, isNameChar c = true := by
  decide

theorem keyword_ne_nil {keyword : Bytes × Keyword} (hmem : keyword ∈ keywords) :
    keyword.1 ≠ [] := by
  intro hnil
  rcases keywords_head keyword hmem with h | h <;> simp [hnil] at h

/-- A keyword is read where no name goes on. -/
theorem scan_name_end {keyword : Bytes × Keyword} (hmem : keyword ∈ keywords)
    (hsign : s.start ≠ .ss ∨ keyword.1.head? = some dollarSign)
    (hrest : ∀ c, rest.head? = some c → isNameChar c = false) :
    scan s (keyword.1 ++ rest) = (.returns (.keyword keyword.2), s, rest) := by
  refine scan_keyword hmem (fun c hc => ?_) fun other hother hbegins => ?_
  · rcases keywords_head keyword hmem with hdollar | hat
    · obtain rfl := Option.some.inj (hdollar.symm.trans hc)
      exact candidates_dollar s.start
    · obtain rfl := Option.some.inj (hat.symm.trans hc)
      refine candidates_at (hsign.resolve_right ?_)
      rw [hc]
      decide
  · rcases prefix_cases hbegins with hshort | ⟨more, hmore, heq, back, hback⟩
    · exact hshort.length_le
    · obtain ⟨d, more, rfl⟩ := List.exists_cons_of_ne_nil hmore
      have hd : d ∈ other.1.tail := by
        rw [heq, List.tail_append_of_ne_nil (keyword_ne_nil hmem)]
        simp
      have hname := keywords_names other hother d hd
      rw [hrest d (by rw [← hback]; rfl)] at hname
      cases hname

theorem scan_assignment {left right : Bytes} (hstart : s.start = .initial ∨ s.start = .pv)
    (hleft : ∀ c ∈ left, isBlank c = true) (hright : ∀ c ∈ right, isBlank c = true)
    (hrest : Next rest) :
    scan s (left ++ (equals :: right) ++ rest) =
      (.returns .assignment, { s with start := .pv }, rest) := by
  have hfits : Matches (Rule.pattern .assign) (left ++ equals :: right) :=
    ⟨left, equals :: right, rfl, hleft, equals, right, rfl, rfl, matches_many hright⟩
  have hself : ∀ other, other <+: left ++ (equals :: right) ++ rest →
      Matches (Rule.pattern .assign) other → other.length ≤ (left ++ equals :: right).length := by
    intro other hother hmatch
    have hallowed := hmatch.allowed
    have hinside : ∀ c ∈ other, (isBlank c || decide (c = equals)) = true := by
      intro c hc
      have hc' := hallowed c hc
      simp only [Rule.pattern, allowed, Bool.or_false, Bool.or_eq_true] at hc' ⊢
      exact hc'.elim .inl fun h => h.symm
    refine (prefix_of_kind hother hinside fun c hc => ?_).length_le
    obtain ⟨hblank, hequals⟩ := hrest c hc
    simp [hblank, hequals]
  cases left with
  | nil =>
    have hcandidates : candidates s.start equals = [] ++ .assign :: [] := by
      rcases hstart with h | h <;> rw [h] <;> decide
    exact wins_candidates _ rfl (by decide) (by decide) hcandidates
      ⟨by simp, hfits, by simp, hself, by simp⟩
  | cons c left =>
    obtain ⟨hdollar, hat, -, -, -, -, hinitial, hpv, -⟩ := blank_kinds c (hleft c (by simp))
    have hcandidates : candidates s.start c = [] ++ .assign :: [.blank] := by
      rcases hstart with h | h <;> rw [h]
      · exact hinitial
      · exact hpv
    refine wins_candidates _ rfl hdollar hat hcandidates ⟨by simp, hfits, by simp, hself, ?_⟩
    intro q hq other hother hmatch
    obtain rfl := List.mem_singleton.mp hq
    have hallowed := hmatch.allowed
    have hblanks : ∀ d ∈ other, isBlank d = true := fun d hd => by
      simpa [Rule.pattern, allowed] using hallowed d hd
    have hleft' : other <+: c :: left ++ (equals :: right ++ rest) :=
      List.append_assoc (c :: left) _ _ ▸ hother
    have hle := (prefix_of_kind hleft' hblanks fun d hd => by
      obtain rfl := Option.some.inj hd
      decide).length_le
    exact Nat.le_trans hle (List.prefix_append (c :: left) (equals :: right)).length_le

theorem digit_kinds : ∀ c, isDigit c = true → c ≠ dollarSign ∧ c ≠ atSign ∧ c ≠ point ∧
    candidates .pv c = [.float, .int] ∧ candidates .ll c = [.listFloat, .listInt] :=
  forall_byte (P := fun c => isDigit c = true → c ≠ dollarSign ∧ c ≠ atSign ∧ c ≠ point ∧
    candidates .pv c = [.float, .int] ∧ candidates .ll c = [.listFloat, .listInt])
    (by decide +kernel)

theorem scan_numeral (n : Numeral) (hstart : s.start = .pv ∨ s.start = .ll)
    (hrest : ∀ c, rest.head? = some c → isDigit c = false ∧ c ≠ point) :
    scan s (n.digits ++ rest) = (.returns (.intval n.value), s, rest) := by
  obtain ⟨digits, hne, hdigits⟩ := n
  obtain ⟨c, ds, rfl⟩ := List.exists_cons_of_ne_nil hne
  obtain ⟨hdollar, hat, -, hpv, hll⟩ := digit_kinds c (hdigits c (by simp))
  have hfloat : ∀ other, other <+: c :: ds ++ rest → ¬ Matches (Rule.pattern .float) other := by
    intro other hother hfits
    have hallowed := hfits.allowed
    have hinside : ∀ d ∈ other, (isDigit d || decide (d = point)) = true := by
      intro d hd
      have hd' := hallowed d hd
      simp only [Rule.pattern, allowed, Bool.or_false, Bool.or_eq_true] at hd' ⊢
      tauto
    have hbegins := prefix_of_kind hother hinside fun d hd => by simp [hrest d hd]
    obtain ⟨front, back, rfl, -, d, back, rfl, hd, -⟩ := hfits
    exact (digit_kinds d (hdigits d (hbegins.subset (by simp)))).2.2.1 (of_decide_eq_true hd)
  have hearlier : ∀ other, other <+: c :: ds ++ rest → Matches (Rule.pattern .float) other →
      other.length < (c :: ds).length := fun other hother hmatch =>
    absurd hmatch (hfloat other hother)
  have hself : ∀ other, other <+: c :: ds ++ rest → Matches (Rule.pattern .int) other →
      other.length ≤ (c :: ds).length := by
    intro other hother hfits
    have hallowed := hfits.allowed
    exact (prefix_of_kind hother (fun d hd => by simpa [Rule.pattern, allowed] using hallowed d hd)
      fun d hd => (hrest d hd).1).length_le
  have hfits : Matches (Rule.pattern .int) (c :: ds) :=
    ⟨c, ds, rfl, hdigits c (by simp), matches_many fun d hd => hdigits d (by simp [hd])⟩
  -- The rules for numbers in lists have the patterns of those for values.
  rcases hstart with h | h
  · have hcandidates : candidates .pv c = [.float] ++ .int :: [] := hpv
    exact wins_candidates _ h hdollar hat hcandidates
      ⟨hne, hfits, List.forall_mem_singleton.mpr hearlier, hself, by simp⟩
  · have hcandidates : candidates .ll c = [.listFloat] ++ .listInt :: [] := hll
    exact wins_candidates _ h hdollar hat hcandidates
      ⟨hne, hfits, List.forall_mem_singleton.mpr hearlier, hself, by simp⟩

theorem letter_kinds : ∀ c, (toLower c = 121 → candidates .pv c = [.yesWord]) ∧
    (toLower c = 110 → candidates .pv c = [.noWord]) ∧
    (toLower c = 116 → candidates .pv c = [.trueWord]) ∧
    (toLower c = 102 → candidates .pv c = [.falseWord]) :=
  forall_byte (P := fun c => (toLower c = 121 → candidates .pv c = [.yesWord]) ∧
    (toLower c = 110 → candidates .pv c = [.noWord]) ∧
    (toLower c = 116 → candidates .pv c = [.trueWord]) ∧
    (toLower c = 102 → candidates .pv c = [.falseWord])) (by decide +kernel)

theorem scan_anyCase {word : Bytes} {r : Rule} {c : UInt8} (hstart : s.start = .pv)
    (hcandidates : candidates .pv c = [r]) (hpattern : r.pattern = anyCase word)
    (htext : (c :: text).map toLower = word) (rest : Bytes) :
    scan s (c :: text ++ rest) = ((r.action (c :: text) s).1, (r.action (c :: text) s).2, rest) := by
  have hsign : c ≠ dollarSign ∧ c ≠ atSign := by
    constructor
    · rintro rfl
      rw [candidates_dollar] at hcandidates
      cases hcandidates
    · rintro rfl
      have hnone : candidates .pv atSign = [] := candidates_at (s := ⟨.pv, .pv⟩) (by decide)
      rw [hnone] at hcandidates
      cases hcandidates
  have hsingle : candidates .pv c = [] ++ r :: [] := hcandidates
  refine wins_candidates .pv hstart hsign.1 hsign.2 hsingle
    ⟨by simp, hpattern ▸ matches_anyCase.mpr htext, by simp, ?_, by simp⟩
  intro other _ hfits
  rw [hpattern] at hfits
  have hlength := congrArg List.length ((matches_anyCase.mp hfits).trans htext.symm)
  simp only [List.length_map] at hlength
  exact Nat.le_of_eq hlength

theorem scan_truthWord (w : Word) (hstart : s.start = .pv) (rest : Bytes) :
    scan s (w.text ++ rest) = (.returns w.token, s, rest) := by
  obtain ⟨text, hword⟩ := w
  have hmem := hword
  simp only [words, List.mem_cons, List.not_mem_nil, or_false] at hmem
  cases text with
  | nil => rcases hmem with h | h | h | h <;> exact absurd h (by decide)
  | cons c text =>
    obtain ⟨hyes, hno, htrue, hfalse⟩ := letter_kinds c
    have htoken (token : Token) (h : token = Word.token ⟨c :: text, hword⟩) :
        ((.returns token, s, rest) : Action × Scanner × Bytes) =
          (.returns (Word.token ⟨c :: text, hword⟩), s, rest) := by rw [h]
    rcases hmem with h | h | h | h
    · rw [scan_anyCase hstart (hyes (List.cons.inj h).1) rfl h]
      exact htoken _ (by unfold Word.token Word.value; rw [h]; decide)
    · rw [scan_anyCase hstart (hno (List.cons.inj h).1) rfl h]
      exact htoken _ (by unfold Word.token Word.value; rw [h]; decide)
    · rw [scan_anyCase hstart (htrue (List.cons.inj h).1) rfl h]
      exact htoken _ (by unfold Word.token Word.value; rw [h]; decide)
    · rw [scan_anyCase hstart (hfalse (List.cons.inj h).1) rfl h]
      exact htoken _ (by unfold Word.token Word.value; rw [h]; decide)

theorem scan_listString (caller : StartCondition) (text : Bytes) :
    scan ⟨.ll, caller⟩ (quote :: text) = (.returns .stringmarker, ⟨.ss, .ll⟩, text) :=
  scan_single .ll rfl (by decide) (by decide) (r := .listString) (by decide) rfl text

theorem scan_listSep (caller : StartCondition) (text : Bytes) :
    scan ⟨.ll, caller⟩ (comma :: text) = (.returns .listsep, ⟨.ll, caller⟩, text) :=
  scan_single .ll rfl (by decide) (by decide) (r := .listSep) (by decide) rfl text

/-! Gaps -/

variable {p : Parsing} {v : Values}

theorem blanks_passed {blanks : Bytes} (hss : s.start ≠ .ss)
    (hblanks : ∀ c ∈ blanks, isBlank c = true) (hrest : Next rest) :
    Loops.Reaches advance ⟨s, p, v, blanks ++ rest⟩ ⟨s, p, v, rest⟩ := by
  by_cases hne : blanks = []
  · rw [hne, List.nil_append]
    exact .refl
  · exact .round .refl (advance_next (by simp [hne]) (scan_blanks hss hne hblanks hrest))

theorem next_cons (hc : isBlank c = false ∧ c ≠ equals) (text : Bytes) : Next (c :: text) := by
  intro d hd
  obtain rfl := Option.some.inj hd
  exact hc

theorem gapLine_passed (l : GapLine) (hss : s.start ≠ .ss) (rest : Bytes) :
    Loops.Reaches advance ⟨s, p, v, l.written ++ rest⟩ ⟨s, p, v, rest⟩ := by
  obtain ⟨blanks, comment, hblanks, hline⟩ := l
  have hnewline : advance ⟨s, p, v, lineFeed :: rest⟩ = .inl ⟨s, p, v, rest⟩ :=
    advance_next (by simp) (scan_newline hss rest)
  cases comment with
  | none =>
    have hwritten : GapLine.written ⟨blanks, none, hblanks, hline⟩ ++ rest =
        blanks ++ lineFeed :: rest := by
      simp [GapLine.written, commented]
    rw [hwritten]
    exact .round (blanks_passed hss hblanks (next_cons (by decide) _)) hnewline
  | some text =>
    have hwritten : GapLine.written ⟨blanks, some text, hblanks, hline⟩ ++ rest =
        blanks ++ (hash :: text ++ lineFeed :: rest) := by
      simp [GapLine.written, commented]
    have hnext : Next (hash :: text ++ lineFeed :: rest) := next_cons (by decide) _
    have hcomment : advance ⟨s, p, v, hash :: text ++ lineFeed :: rest⟩ =
        .inl ⟨s, p, v, lineFeed :: rest⟩ :=
      advance_next (by simp) (scan_lineComment hss (hline text rfl) rest)
    rw [hwritten]
    exact .round (.round (blanks_passed hss hblanks hnext) hcomment) hnewline

theorem gap_passed (g : Gap) (hss : s.start ≠ .ss) (hrest : Next rest) :
    Loops.Reaches advance ⟨s, p, v, g.written ++ rest⟩ ⟨s, p, v, rest⟩ := by
  obtain ⟨lines, indent, hindent⟩ := g
  induction lines with
  | nil => exact blanks_passed hss hindent hrest
  | cons l lines ih =>
    have hwritten : Gap.written ⟨l :: lines, indent, hindent⟩ ++ rest =
        l.written ++ (Gap.written ⟨lines, indent, hindent⟩ ++ rest) := by
      simp [Gap.written]
    rw [hwritten]
    exact (gapLine_passed l hss _).trans ih

/-- What no name, number or string goes on with. -/
def isEnd (c : UInt8) : Bool := !isNameChar c && c ≠ point && c ≠ 93

def Ends (rest : Bytes) : Prop := ∀ c, rest.head? = some c → isEnd c = true

theorem ends_cons (hc : isEnd c = true) (text : Bytes) : Ends (c :: text) := by
  intro d hd
  obtain rfl := Option.some.inj hd
  exact hc

theorem Ends.number (hrest : Ends rest) : ∀ c, rest.head? = some c → isDigit c = false ∧ c ≠ point := by
  intro c hc
  have hend := hrest c hc
  simp only [isEnd, isNameChar, Bool.and_eq_true, Bool.not_eq_true', Bool.or_eq_false_iff,
    decide_eq_true_eq] at hend
  exact ⟨hend.1.1.2, hend.1.2⟩

theorem Ends.name (hrest : Ends rest) : ∀ c, rest.head? = some c → isNameChar c = false := by
  intro c hc
  have hend := hrest c hc
  simp only [isEnd, Bool.and_eq_true, Bool.not_eq_true'] at hend
  exact hend.1.1

theorem Ends.blanks {blanks : Bytes} (hblanks : ∀ c ∈ blanks, isBlank c = true) (hrest : Ends rest) :
    Ends (blanks ++ rest) := by
  cases blanks with
  | nil => exact hrest
  | cons c blanks =>
    have hall : ∀ c, isBlank c = true → isEnd c = true :=
      forall_byte (P := fun c => isBlank c = true → isEnd c = true) (by decide +kernel)
    exact ends_cons (hall c (hblanks c (by simp))) _

theorem Ends.gap (g : Gap) (hrest : Ends rest) : Ends (g.written ++ rest) := by
  obtain ⟨lines, indent, hindent⟩ := g
  cases lines with
  | nil => exact hrest.blanks hindent
  | cons l lines =>
    obtain ⟨blanks, comment, hblanks, hline⟩ := l
    have hwritten : Gap.written ⟨⟨blanks, comment, hblanks, hline⟩ :: lines, indent, hindent⟩ ++ rest =
        blanks ++ (commented comment ++ lineFeed :: (Gap.written ⟨lines, indent, hindent⟩ ++ rest)) := by
      simp [Gap.written, GapLine.written]
    rw [hwritten]
    refine Ends.blanks hblanks ?_
    cases comment with
    | none => exact ends_cons (by decide) _
    | some text => exact ends_cons (by decide) _

end ChaosVpn.ConfigTokens
