import ChaosVpn.ParserSections

/-! parser_parse_config with all the static variables of parser.c. They outlive a line and
also the call, the peers of a section still depend on its own lines only. -/

namespace ChaosVpn.SectionIsolation
open CStrings Libc TextLines PeerParser ParserLines ParserSections

structure Statics extends ParserState where
  doneUnknownWarnings : List Bytes

abbrev equalsSign : UInt8 := 61

/-- What strtok_r() finds in front of an equals sign. -/
def unknownLabel (line : Bytes) : Bytes :=
  (line.dropWhile (· = equalsSign)).takeWhile (· ≠ equalsSign)

/-- The labels that are remembered afterwards; a line without one is logged each time. -/
def parserWarnUnknown (line : Bytes) (done : List Bytes) : List Bytes :=
  let label := unknownLabel line
  if label.isEmpty || done.any (strcasecmp label) then done else done ++ [label]

/-- The line reaches the last branch of parser_parse_line outside of a key block. -/
def isUnknown (libc : CLibrary) (st : ParserState) (line : Bytes) : Bool :=
  (headerName line).isNone && st.myConfig.isSome && (findItem libc line).isNone &&
    (parserCheckConfigitem line beginKey).isNone && (parserCheckConfigitem line endKey).isNone &&
    !st.parseKeyMode

def parseLineStatics (libc : CLibrary) (st : Statics) (token : Bytes) : Statics where
  toParserState := parserParseLine libc st.toParserState token
  doneUnknownWarnings :=
    if isUnknown libc st.toParserState (strTrim token) then
      parserWarnUnknown (strTrim token) st.doneUnknownWarnings
    else st.doneUnknownWarnings

/-- The call starts with the static variables as the last one left them. -/
def parseConfigStatics (libc : CLibrary) (left : Statics) (data : Bytes) : Statics :=
  (parserLines data).foldl (parseLineStatics libc)
    { left with complete := [], myConfig := none, parseKeyMode := false, doneUnknownWarnings := [] }

/-- The peers that a call appends to the list. -/
def parsedPeers (libc : CLibrary) (left : Statics) (data : Bytes) : List PeerConfig :=
  peers (parseConfigStatics libc left data).toParserState

def StartsSection (text : Bytes) : Prop :=
  ((text.splitOn lineFeed).head?.bind fun line => headerName (strTrim line)).isSome = true

instance (text : Bytes) : Decidable (StartsSection text) := inferInstanceAs (Decidable (_ = true))

variable {libc : CLibrary}

theorem foldl_toParserState (tokens : List Bytes) (st : Statics) :
    (tokens.foldl (parseLineStatics libc) st).toParserState =
      tokens.foldl (parserParseLine libc) st.toParserState := by
  induction tokens generalizing st with
  | nil => rfl
  | cons token tokens ih => exact ih (parseLineStatics libc st token)

/-- The static variables of the last call do not matter. -/
theorem parsedPeers_eq (left : Statics) (data : Bytes) :
    parsedPeers libc left data = parserParseConfig libc data := by
  rw [parsedPeers, parseConfigStatics, foldl_toParserState, parserParseConfig]

theorem parserLines_append {a b : Bytes} (hnul : (0 : UInt8) ∉ a ++ b)
    (ha : Complete lineFeed a) : parserLines (a ++ b) = parserLines a ++ parserLines b := by
  obtain ⟨hnulA, hnulB⟩ := not_or.mp (mt List.mem_append.mpr hnul)
  have hlines : ∀ text : Bytes, (0 : UInt8) ∉ text → parserLines text =
      keptLines lineFeed (fun token => !token.isEmpty && token.head? != some hash) text := by
    intro text htext
    rw [parserLines, cstr_eq htext, keptLines]
  rw [hlines _ hnul, hlines _ hnulA, hlines _ hnulB, keptLines_append rfl ha]

theorem strTrim_prefix (s : Bytes) : strTrim s <+: strSkipSpaces s := by
  have hsuffix := List.reverse_prefix.mpr
    (List.dropWhile_suffix (l := (strSkipSpaces s).reverse) isSpace)
  rwa [List.reverse_reverse] at hsuffix

/-- A header line is neither skipped as empty nor as a comment. -/
theorem token_of_headerName {token name : Bytes} (h : headerName (strTrim token) = some name) :
    (!token.isEmpty && token.head? != some hash) = true := by
  cases token with
  | nil => cases h
  | cons c rest =>
    have hhash : c ≠ hash := by
      rintro rfl
      obtain ⟨tail, htail⟩ := strTrim_prefix (hash :: rest)
      have hskip : strSkipSpaces (hash :: rest) = hash :: rest := rfl
      unfold headerName at h
      split at h
      · rename_i hheader
        cases htrim : strTrim (hash :: rest) with
        | nil => simp [htrim] at hheader
        | cons d ds =>
          rw [htrim, hskip] at htail
          rw [htrim] at hheader
          have hd : d = hash := (List.cons.inj htail).1
          rw [hd] at hheader
          exact absurd (Option.some.inj hheader.2.1) (by decide)
      · cases h
    simpa using hhash

/-- Texts that are complete are parsed as if they were alone, what follows starts anew. -/
theorem parsedPeers_append (left leftA leftB : Statics) {a b : Bytes}
    (hnul : (0 : UInt8) ∉ a ++ b) (ha : Complete lineFeed a) (hb : StartsSection b) :
    parsedPeers libc left (a ++ b) = parsedPeers libc leftA a ++ parsedPeers libc leftB b := by
  simp only [parsedPeers_eq]
  obtain ⟨name, hname⟩ := Option.isSome_iff_exists.mp hb
  obtain ⟨line, hline, hheader⟩ := Option.bind_eq_some_iff.mp hname
  obtain ⟨rest, hrest⟩ := List.head?_eq_some_iff.mp hline
  have hlinesB : parserLines b = line :: rest.filter fun token =>
      !token.isEmpty && token.head? != some hash := by
    rw [parserLines, cstr_eq (not_or.mp (mt List.mem_append.mpr hnul)).2, hrest,
      List.filter_cons, if_pos (token_of_headerName hheader)]
  have hfront : (splitSections (parserLines b)).1 = [] := by
    simp [hlinesB, splitSections, hheader]
  have hfold : ∀ st : ParserState, peers ((parserLines b).foldl (parserParseLine libc) st) =
      peers st ++ (splitSections (parserLines b)).2.map (parseSection libc) := by
    intro st
    rw [peers_foldl, hfront]
    simp [peers]
  rw [parserParseConfig, parserLines_append hnul ha, List.foldl_append, hfold,
    parserParseConfig_eq b, sections]
  rfl

/-- The statics after a text that ended in a key block. -/
def leftStatics : Statics where
  complete := []
  myConfig := some (parserCreateConfig (ascii "a"))
  parseKeyMode := true
  doneUnknownWarnings := [ascii "speed"]

def openBlock : Bytes := ascii "[a]\n" ++ beginKey ++ ascii "\nport=\n"

theorem parsedPeers_append_openBlock :
    parsedPeers plainLibrary leftStatics (openBlock ++ ascii "[b]\nMIIB\n") =
      parsedPeers plainLibrary leftStatics openBlock ++
        parsedPeers plainLibrary leftStatics (ascii "[b]\nMIIB\n") :=
  parsedPeers_append leftStatics leftStatics leftStatics (by decide) (.inr rfl) (by decide +kernel)

end ChaosVpn.SectionIsolation
