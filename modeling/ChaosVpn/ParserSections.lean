import Mathlib.Data.List.Induction
import Mathlib.Data.List.Pairwise
import ChaosVpn.ParserLines

/-! The sections of a text with their trimmed lines. What a peer is depends on its own
section only. -/

namespace ChaosVpn.ParserSections
open CStrings Libc AddrMask PeerParser ParserLines TextLines

structure PeerSection where
  name : Bytes
  lines : List Bytes
  deriving DecidableEq

/-- The lines in front of the first header, and the sections behind it. -/
def splitSections (tokens : List Bytes) : List Bytes × List PeerSection :=
  match tokens with
  | [] => ([], [])
  | token :: tokens =>
    let rest := splitSections tokens
    match headerName (strTrim token) with
    | some name => ([], ⟨name, rest.1⟩ :: rest.2)
    | none => (strTrim token :: rest.1, rest.2)

def sections (data : Bytes) : List PeerSection := (splitSections (parserLines data)).2

def parseLine (libc : CLibrary) (st : PeerConfig × Bool) (line : Bytes) : PeerConfig × Bool :=
  parseItem libc line st.1 st.2

def parseSection (libc : CLibrary) (s : PeerSection) : PeerConfig :=
  (s.lines.foldl (parseLine libc) (parserCreateConfig s.name, false)).1

variable {libc : CLibrary}

theorem peers_foldl (tokens : List Bytes) (st : ParserState) :
    peers (tokens.foldl (parserParseLine libc) st) =
      st.complete ++
        (st.myConfig.map fun p =>
          ((splitSections tokens).1.foldl (parseLine libc) (p, st.parseKeyMode)).1).toList ++
        (splitSections tokens).2.map (parseSection libc) := by
  induction tokens generalizing st with
  | nil => simp [splitSections, peers]
  | cons token tokens ih =>
    rw [List.foldl_cons, ih]
    cases hname : headerName (strTrim token) with
    | some name =>
      rw [parserParseLine_header st hname]
      cases hmy : st.myConfig <;> simp [splitSections, hname, hmy, peers, parseSection]
    | none =>
      obtain ⟨complete, myConfig, keyMode⟩ := st
      cases myConfig with
      | none => simp [splitSections, hname, parserParseLine]
      | some p =>
        rw [parserParseLine_item complete p keyMode hname]
        simp [splitSections, hname, parseLine]

theorem parserParseConfig_eq (data : Bytes) :
    parserParseConfig libc data = (sections data).map (parseSection libc) := by
  have hfold : parserParseConfig libc data = _ := peers_foldl (parserLines data) ⟨[], none, false⟩
  simpa [sections] using hfold

/-- The peers and their sections, one beside the other. -/
def parsedSections (libc : CLibrary) (data : Bytes) : List (PeerConfig × PeerSection) :=
  (parserParseConfig libc data).zip (sections data)

theorem parsedSections_fst (data : Bytes) :
    (parsedSections libc data).map Prod.fst = parserParseConfig libc data := by
  rw [parsedSections, List.map_fst_zip]
  simp [parserParseConfig_eq]

theorem mem_parsedSections {data : Bytes} {p : PeerConfig} {s : PeerSection}
    (h : (p, s) ∈ parsedSections libc data) : s ∈ sections data ∧ p = parseSection libc s := by
  rw [parsedSections, parserParseConfig_eq, ← List.map_prod_right_eq_zip] at h
  obtain ⟨t, ht, heq⟩ := List.mem_map.mp h
  obtain ⟨rfl, rfl⟩ := Prod.mk.inj heq
  exact ⟨ht, rfl⟩

theorem mem_splitSections (tokens : List Bytes) :
    (∀ line ∈ (splitSections tokens).1, ∃ token ∈ tokens, line = strTrim token) ∧
      ∀ s ∈ (splitSections tokens).2, ∀ line ∈ s.lines, ∃ token ∈ tokens, line = strTrim token := by
  induction tokens with
  | nil => simp [splitSections]
  | cons token tokens ih =>
    obtain ⟨hlines, hsections⟩ := ih
    have hbehind {line : Bytes} (h : ∃ t ∈ tokens, line = strTrim t) :
        ∃ t ∈ token :: tokens, line = strTrim t := by
      obtain ⟨t, ht, hline⟩ := h
      exact ⟨t, by simp [ht], hline⟩
    cases hname : headerName (strTrim token) with
    | some name =>
      simp only [splitSections, hname, List.not_mem_nil, false_implies, implies_true,
        List.forall_mem_cons, true_and]
      exact ⟨fun line h => hbehind (hlines line h),
        fun s hs line h => hbehind (hsections s hs line h)⟩
    | none =>
      simp only [splitSections, hname, List.forall_mem_cons]
      exact ⟨⟨⟨token, by simp, rfl⟩, fun line h => hbehind (hlines line h)⟩,
        fun s hs line h => hbehind (hsections s hs line h)⟩

theorem not_mem_line {data : Bytes} {s : PeerSection} (hs : s ∈ sections data) {line : Bytes}
    (hline : line ∈ s.lines) : lineFeed ∉ line := by
  obtain ⟨token, htoken, rfl⟩ := (mem_splitSections _).2 s hs line hline
  have hsplit : token ∈ (cstr data).splitOn lineFeed := (List.mem_filter.mp htoken).1
  exact fun hmem => (mem_line hsplit).1 (mem_of_mem_strTrim hmem)

/-! What a line does -/

/-- A line is an item or it is offered to the key. -/
theorem parseItem_cases (line : Bytes) (p : PeerConfig) (keyMode : Bool) :
    (∃ entry ∈ configItems libc, StartsWith entry.1 line ∧
      parseItem libc line p keyMode = (entry.2 (line.drop entry.1.length) p, keyMode)) ∨
    (∀ keyword ∈ itemKeywords, ¬ StartsWith keyword line) ∧
      parseItem libc line p keyMode = parseKeyLine line p keyMode := by
  by_cases h : ∃ entry ∈ configItems libc, StartsWith entry.1 line
  · obtain ⟨entry, hentry, hstarts⟩ := h
    refine .inl ⟨entry, hentry, hstarts, ?_⟩
    rw [parseItem_eq, findItem_eq hentry hstarts]
  · have hnone : ∀ keyword ∈ itemKeywords, ¬ StartsWith keyword line := by
      intro keyword hkeyword hstarts
      rw [← keywords_configItems libc] at hkeyword
      obtain ⟨entry, hentry, rfl⟩ := List.mem_map.mp hkeyword
      exact h ⟨entry, hentry, hstarts⟩
    refine .inr ⟨hnone, ?_⟩
    rw [parseItem_eq, findItem_none hnone]

theorem itemKeywords_apart_of_ne {a b : Bytes} (ha : a ∈ itemKeywords) (hb : b ∈ itemKeywords)
    (hne : a ≠ b) : Apart a b :=
  have : Std.Symm Apart := ⟨fun _ _ h => ⟨h.2, h.1⟩⟩
  itemKeywords_apart.forall ha hb hne

theorem parserCheckConfigitem_item {a b line : Bytes} (ha : a ∈ itemKeywords)
    (hb : b ∈ itemKeywords) (hstarts : StartsWith a line) :
    parserCheckConfigitem line b = if a = b then some (line.drop a.length) else none := by
  rw [parserCheckConfigitem_eq]
  by_cases hab : a = b
  · rw [if_pos (hab ▸ hstarts), if_pos hab, hab]
  · rw [if_neg ((itemKeywords_apart_of_ne ha hb hab).not_startsWith hstarts), if_neg hab]

theorem parseKeyLine_key (line : Bytes) (p : PeerConfig) (keyMode : Bool) :
    ∃ key, (parseKeyLine line p keyMode).1 = { p with key } := by
  rw [parseKeyLine_eq]
  split
  · exact ⟨_, rfl⟩
  · split
    · exact ⟨_, rfl⟩
    · split <;> exact ⟨_, rfl⟩

/-- What the items and the key lines of one line keep holds of the peer of the section. -/
theorem parseSection_keeps {P : PeerConfig → Prop} {s : PeerSection}
    (hcreate : P (parserCreateConfig s.name))
    (hitem : ∀ line ∈ s.lines, ∀ entry ∈ configItems libc, ∀ n p, P p →
      P (entry.2 (line.drop n) p))
    (hkey : ∀ p key, P p → P { p with key }) : P (parseSection libc s) := by
  have hfold : ∀ lines : List Bytes, (∀ line ∈ lines, line ∈ s.lines) → ∀ st : PeerConfig × Bool,
      P st.1 → P (lines.foldl (parseLine libc) st).1 := by
    intro lines
    induction lines with
    | nil => exact fun _ _ hst => hst
    | cons line lines ih =>
      intro hlines st hst
      refine ih (fun l hl => hlines l (by simp [hl])) _ ?_
      rw [parseLine]
      rcases parseItem_cases line st.1 st.2 with ⟨entry, hentry, -, hitems⟩ | ⟨-, hkeyLine⟩
      · rw [hitems]
        exact hitem line (hlines line (by simp)) entry hentry _ _ hst
      · obtain ⟨key, heq⟩ := parseKeyLine_key line st.1 st.2
        rw [hkeyLine, heq]
        exact hkey _ key hst
  exact hfold s.lines (fun _ h => h) _ hcreate

/-- A text that lines replace as a whole is part of a line. -/
theorem not_mem_field {get : PeerConfig → Bytes} {s : PeerSection}
    (hlines : ∀ line ∈ s.lines, lineFeed ∉ line)
    (hcreate : ∀ name, get (parserCreateConfig name) = [])
    (hitem : ∀ entry ∈ configItems libc, ∀ item p,
      get (entry.2 item p) = item ∨ get (entry.2 item p) = get p)
    (hkey : ∀ p key, get { p with key } = get p) : lineFeed ∉ get (parseSection libc s) := by
  refine parseSection_keeps (P := fun p => lineFeed ∉ get p) ?_ ?_ ?_
  · simp [hcreate]
  · intro line hline entry hentry n p hp
    rcases hitem entry hentry (line.drop n) p with h | h
    · rw [h]
      exact fun hmem => hlines line hline (List.mem_of_mem_drop hmem)
    · rwa [h]
  · intro p key hp
    rwa [hkey]

/-! The subnets of a section -/

/-- The items of a keyword that are subnets of the family. -/
def checkedSubnets (libc : CLibrary) (keyword : Bytes) (family : Family) (lines : List Bytes) :
    List Bytes :=
  (lines.filterMap fun line => parserCheckConfigitem line keyword).filter fun item =>
    addrmaskVerifySubnet libc item (some family)

theorem not_mem_checkedSubnets {keyword : Bytes} {family : Family} {lines : List Bytes}
    (hlines : ∀ line ∈ lines, lineFeed ∉ line) :
    ∀ item ∈ checkedSubnets libc keyword family lines, lineFeed ∉ item := by
  intro item hitem hmem
  obtain ⟨line, hline, hcheck⟩ := List.mem_filterMap.mp (List.mem_filter.mp hitem).1
  rw [parserCheckConfigitem_eq] at hcheck
  split at hcheck
  · rw [← Option.some.inj hcheck] at hmem
    exact hlines line hline (List.mem_of_mem_drop hmem)
  · cases hcheck

/-- A list that one keyword appends to has the checked items of the keyword. -/
theorem checkedSubnets_parseSection {get : PeerConfig → List Bytes} {keyword : Bytes}
    {family : Family} (hkeyword : keyword ∈ itemKeywords)
    (hcreate : ∀ name, get (parserCreateConfig name) = [])
    (hitem : ∀ entry ∈ configItems libc, ∀ item p, get (entry.2 item p) =
      if entry.1 = keyword then addSubnet libc family (get p) item else get p)
    (hkey : ∀ p key, get { p with key } = get p) (s : PeerSection) :
    get (parseSection libc s) = checkedSubnets libc keyword family s.lines := by
  have hfold : ∀ (lines : List Bytes) (st : PeerConfig × Bool),
      get (lines.foldl (parseLine libc) st).1 =
        get st.1 ++ checkedSubnets libc keyword family lines := by
    intro lines
    induction lines with
    | nil => simp [checkedSubnets]
    | cons line lines ih =>
      intro st
      rw [List.foldl_cons, ih, parseLine]
      rcases parseItem_cases line st.1 st.2 with ⟨entry, hentry, hstarts, hitems⟩ | ⟨hno, hkeyLine⟩
      · have hmem : entry.1 ∈ itemKeywords :=
          keywords_configItems libc ▸ List.mem_map_of_mem hentry
        rw [hitems, hitem entry hentry]
        simp only [checkedSubnets, List.filterMap_cons,
          parserCheckConfigitem_item hmem hkeyword hstarts]
        split
        · by_cases hverify : addrmaskVerifySubnet libc (line.drop entry.1.length) (some family) <;>
            simp [addSubnet, hverify]
        · rfl
      · obtain ⟨key, heq⟩ := parseKeyLine_key line st.1 st.2
        rw [hkeyLine, heq, hkey]
        simp [checkedSubnets, parserCheckConfigitem_eq, hno keyword hkeyword]
  have hlines := hfold s.lines (parserCreateConfig s.name, false)
  rwa [hcreate, List.nil_append] at hlines

/-! The key of a section -/

/-- The line behind these is in a key block. -/
def InKey (lines : List Bytes) : Prop :=
  ∃ before first inside, lines = before ++ first :: inside ∧ StartsWith beginKey first ∧
    ∀ line ∈ inside, ¬ StartsWith endKey line

/-- A line of a key block that no later block replaces. -/
def KeyHolds (P : Bytes → Prop) (lines : List Bytes) : Prop :=
  ∃ before line after, lines = before ++ line :: after ∧ InKey before ∧ P line ∧
    ∀ l ∈ after, ¬ StartsWith beginKey l

theorem inKey_snoc (lines : List Bytes) (line : Bytes) :
    InKey (lines ++ [line]) ↔
      StartsWith beginKey line ∨ (InKey lines ∧ ¬ StartsWith endKey line) := by
  constructor
  · rintro ⟨before, first, inside, heq, hbegin, hinside⟩
    rcases List.eq_nil_or_concat inside with rfl | ⟨inside', last, rfl⟩
    · obtain ⟨-, hlast⟩ := List.append_inj' heq rfl
      exact .inl ((List.cons.inj hlast).1 ▸ hbegin)
    · rw [List.concat_eq_append, ← List.cons_append, ← List.append_assoc] at heq
      obtain ⟨hfront, hlast⟩ := List.append_inj' heq rfl
      refine .inr ⟨⟨before, first, inside', hfront, hbegin, fun l hl => hinside l (by simp [hl])⟩, ?_⟩
      exact hinside line (by simp [(List.cons.inj hlast).1])
  · rintro (hbegin | ⟨⟨before, first, inside, rfl, hbegin, hinside⟩, hend⟩)
    · exact ⟨lines, line, [], rfl, hbegin, by simp⟩
    · refine ⟨before, first, inside ++ [line], by simp, hbegin, fun l hl => ?_⟩
      rcases List.mem_append.mp hl with hl | hl
      · exact hinside l hl
      · exact List.mem_singleton.mp hl ▸ hend

theorem keyHolds_snoc {P : Bytes → Prop} (lines : List Bytes) (line : Bytes) :
    KeyHolds P (lines ++ [line]) ↔
      (InKey lines ∧ P line) ∨ (KeyHolds P lines ∧ ¬ StartsWith beginKey line) := by
  constructor
  · rintro ⟨before, l, after, heq, hin, hl, hafter⟩
    rcases List.eq_nil_or_concat after with rfl | ⟨after', last, rfl⟩
    · obtain ⟨rfl, hlast⟩ := List.append_inj' heq rfl
      exact .inl ⟨hin, (List.cons.inj hlast).1 ▸ hl⟩
    · rw [List.concat_eq_append, ← List.cons_append, ← List.append_assoc] at heq
      obtain ⟨hfront, hlast⟩ := List.append_inj' heq rfl
      refine .inr ⟨⟨before, l, after', hfront, hin, hl, fun k hk => hafter k (by simp [hk])⟩, ?_⟩
      exact hafter line (by simp [(List.cons.inj hlast).1])
  · rintro (⟨hin, hl⟩ | ⟨⟨before, l, after, rfl, hin, hl, hafter⟩, hbegin⟩)
    · exact ⟨lines, line, [], rfl, hin, hl, by simp⟩
    · refine ⟨before, l, after ++ [line], by simp, hin, hl, fun k hk => ?_⟩
      rcases List.mem_append.mp hk with hk | hk
      · exact hafter k hk
      · exact List.mem_singleton.mp hk ▸ hbegin

theorem key_configItem {entry : Bytes × (Bytes → PeerConfig → PeerConfig)}
    (h : entry ∈ configItems libc) (item : Bytes) (p : PeerConfig) :
    (entry.2 item p).key = p.key := by
  revert entry
  simp [configItems]

theorem keyMarks_apart :
    ∀ keyword ∈ itemKeywords, Apart keyword beginKey ∧ Apart keyword endKey := by
  decide +kernel

variable (libc) in
/-- What a line does to the key and to the mode. -/
theorem parseLine_key (st : PeerConfig × Bool) (line : Bytes) :
    ((parseLine libc st line).1.key, (parseLine libc st line).2) =
      if StartsWith beginKey line then (line ++ [lineFeed], true)
      else if StartsWith endKey line then (st.1.key ++ line ++ [lineFeed], false)
      else if st.2 ∧ ∀ keyword ∈ itemKeywords, ¬ StartsWith keyword line then
        (st.1.key ++ line ++ [lineFeed], true)
      else (st.1.key, st.2) := by
  rw [parseLine]
  rcases parseItem_cases line st.1 st.2 with ⟨entry, hentry, hstarts, hitem⟩ | ⟨hno, hkeyLine⟩
  · have hmem : entry.1 ∈ itemKeywords := keywords_configItems libc ▸ List.mem_map_of_mem hentry
    obtain ⟨hbegin, hend⟩ := keyMarks_apart entry.1 hmem
    rw [hitem, if_neg (hbegin.not_startsWith hstarts), if_neg (hend.not_startsWith hstarts),
      if_neg fun h => h.2 entry.1 hmem hstarts, key_configItem hentry]
  · rw [hkeyLine, parseKeyLine_eq]
    by_cases hbegin : StartsWith beginKey line
    · simp [hbegin]
    · by_cases hend : StartsWith endKey line
      · simp [hbegin, hend, parserExtendKey]
      · by_cases hmode : st.2 = true
        · simp only [if_neg hbegin, if_neg hend, if_pos hmode, if_pos (And.intro hmode hno),
            parserExtendKey]
        · simp [hbegin, hend, hmode]

variable (libc) in
theorem keyMode_foldl (lines : List Bytes) (p : PeerConfig) :
    (lines.foldl (parseLine libc) (p, false)).2 = true ↔ InKey lines := by
  induction lines using List.reverseRecOn with
  | nil =>
    have hnone : ¬ InKey [] := by
      rintro ⟨before, first, inside, heq, -⟩
      simp at heq
    simp [hnone]
  | append_singleton lines line ih =>
    have hline := congrArg Prod.snd
      (parseLine_key libc (lines.foldl (parseLine libc) (p, false)) line)
    rw [List.foldl_append, List.foldl_cons, List.foldl_nil, inKey_snoc, ← ih]
    dsimp only at hline
    rw [hline]
    by_cases hbegin : StartsWith beginKey line
    · simp [hbegin]
    · by_cases hend : StartsWith endKey line
      · simp [hbegin, hend]
      · rw [if_neg hbegin, if_neg hend]
        split
        · rename_i hkey
          simp [hbegin, hend, hkey.1]
        · simp [hbegin, hend]

theorem keptLines_key_foldl {keyword : Bytes} (hne : keyword ≠ [])
    (hapart : ∀ mark ∈ itemKeywords ++ [beginKey, endKey], Apart mark keyword)
    {lines : List Bytes} (hlines : ∀ line ∈ lines, lineFeed ∉ line) {p : PeerConfig}
    (hp : p.key = []) :
    Complete lineFeed (lines.foldl (parseLine libc) (p, false)).1.key ∧
      (keptLines lineFeed (fun line => decide (StartsWith keyword line))
        (lines.foldl (parseLine libc) (p, false)).1.key = [] ↔
          ¬ KeyHolds (StartsWith keyword) lines) := by
  have hempty : decide (StartsWith keyword []) = false := by
    simpa [StartsWith] using hne
  have hnil : keptLines lineFeed (fun line => decide (StartsWith keyword line)) [] = [] := by
    rw [keptLines_line (by simp), hempty]
    rfl
  induction lines using List.reverseRecOn with
  | nil =>
    have hnone : ¬ KeyHolds (StartsWith keyword) [] := by
      rintro ⟨before, l, after, heq, -⟩
      simp at heq
    simp [hp, hnone, hnil, Complete]
  | append_singleton lines line ih =>
    obtain ⟨hcomplete, hkept⟩ := ih fun l hl => hlines l (by simp [hl])
    have hline := congrArg Prod.fst
      (parseLine_key libc (lines.foldl (parseLine libc) (p, false)) line)
    have hmode := keyMode_foldl libc lines p
    rw [List.foldl_append, List.foldl_cons, List.foldl_nil, keyHolds_snoc, ← hmode]
    generalize lines.foldl (parseLine libc) (p, false) = st at hcomplete hkept hline ⊢
    have hfeed : lineFeed ∉ line := hlines line (by simp)
    have hextend (key : Bytes) (hkey : Complete lineFeed key) :
        keptLines lineFeed (fun l => decide (StartsWith keyword l)) (key ++ line ++ [lineFeed]) =
          keptLines lineFeed (fun l => decide (StartsWith keyword l)) key ++
            if StartsWith keyword line then [line] else [] := by
      rw [keptLines_append_line hempty hkey hfeed]
      simp
    dsimp only at hline
    rw [hline]
    by_cases hstarts : StartsWith keyword line
    · have hmarks : ∀ mark ∈ itemKeywords ++ [beginKey, endKey], ¬ StartsWith mark line :=
        fun mark hmark hmarkStarts => (hapart mark hmark).not_startsWith hmarkStarts hstarts
      have hbegin := hmarks beginKey (by simp)
      have hend := hmarks endKey (by simp)
      have hitems : ∀ mark ∈ itemKeywords, ¬ StartsWith mark line := fun mark hmark =>
        hmarks mark (by simp [hmark])
      rw [if_neg hbegin, if_neg hend]
      by_cases hst : st.2 = true
      · rw [if_pos ⟨hst, hitems⟩, hextend _ hcomplete, if_pos hstarts]
        exact ⟨complete_line _, by simp [hstarts, hst]⟩
      · rw [if_neg fun h => hst h.1]
        exact ⟨hcomplete, by simp [hkept, hbegin, hst]⟩
    · by_cases hbegin : StartsWith beginKey line
      · have hfirst := hextend [] (.inl rfl)
        rw [List.nil_append, hnil, if_neg hstarts] at hfirst
        rw [if_pos hbegin, hfirst]
        exact ⟨complete_line _, by simp [hstarts, hbegin]⟩
      · have hsame := hextend _ hcomplete
        rw [if_neg hstarts, List.append_nil] at hsame
        have hholds : ¬ (st.2 = true ∧ StartsWith keyword line ∨
            KeyHolds (StartsWith keyword) lines ∧ ¬ StartsWith beginKey line) ↔
              ¬ KeyHolds (StartsWith keyword) lines := by simp [hstarts, hbegin]
        rw [if_neg hbegin, hholds]
        split
        · exact ⟨complete_line _, by rw [hsame, hkept]⟩
        · split
          · exact ⟨complete_line _, by rw [hsame, hkept]⟩
          · exact ⟨hcomplete, hkept⟩

/-- A line of another file is in the key where a block that stays holds it. -/
theorem keptLines_key {keyword : Bytes} (hne : keyword ≠ [])
    (hapart : ∀ mark ∈ itemKeywords ++ [beginKey, endKey], Apart mark keyword)
    {s : PeerSection} (hlines : ∀ line ∈ s.lines, lineFeed ∉ line) :
    keptLines lineFeed (fun line => decide (StartsWith keyword line)) (parseSection libc s).key =
      [] ↔ ¬ KeyHolds (StartsWith keyword) s.lines :=
  (keptLines_key_foldl hne hapart hlines rfl).2

end ChaosVpn.ParserSections
