import ChaosVpn.ParserSections

/-! The key block of a section. Every line of it is tried as an item before it goes to the
key. -/

namespace ChaosVpn.KeyBlocks
open CStrings Libc TextLines PeerParser ParserLines ParserSections

def isBase64Byte (c : UInt8) : Bool :=
  (65 ≤ c && c ≤ 90) || (97 ≤ c && c ≤ 122) || isDigit c || c ∈ [43, 47, 61]

structure Base64Line (line : Bytes) : Prop where
  nonempty : line ≠ []
  bytes : ∀ c ∈ line, isBase64Byte c = true

def isItem (line : Bytes) : Bool := itemKeywords.any fun keyword => decide (StartsWith keyword line)

/-- The lines as they stand in a key. -/
def keyText (lines : List Bytes) : Bytes := lines.flatMap (· ++ [lineFeed])

/-- None of the lines begins or ends a block. -/
def NoMarks (lines : List Bytes) : Prop :=
  ∀ line ∈ lines, ¬ StartsWith beginKey line ∧ ¬ StartsWith endKey line

/-- The last block of these lines is this block again, but for lines that are items. -/
def SameBlock (body lines : List Bytes) : Prop :=
  ∃ earlier inside outside, lines = earlier ++ beginKey :: (inside ++ endKey :: outside) ∧
    NoMarks inside ∧ NoMarks outside ∧ inside.filter (fun line => !isItem line) = body

/-- A peer without its key. -/
def otherFields (p : PeerConfig) : PeerConfig := { p with key := [] }

/-- The peer of a section with this block between other lines. -/
structure KeptVerbatim (libc : CLibrary) (p : PeerConfig) (s : PeerSection)
    (before body after : List Bytes) : Prop where
  key : p.key = keyText (beginKey :: (body ++ [endKey]))
  others : otherFields p = otherFields (parseSection libc ⟨s.name, before ++ after⟩)

variable {libc : CLibrary}

theorem isItem_iff {line : Bytes} :
    isItem line = true ↔ ∃ keyword ∈ itemKeywords, StartsWith keyword line := by
  simp [isItem]

theorem isItem_eq_false_iff {line : Bytes} :
    isItem line = false ↔ ∀ keyword ∈ itemKeywords, ¬ StartsWith keyword line := by
  rw [← Bool.not_eq_true, isItem_iff]
  simp

/-! The key -/

/-- Neither mark of a block starts with a byte of the alphabet. -/
theorem Base64Line.not_mark {line : Bytes} (h : Base64Line line) :
    ¬ StartsWith beginKey line ∧ ¬ StartsWith endKey line := by
  obtain ⟨c, rest, rfl⟩ := List.exists_cons_of_ne_nil h.nonempty
  have hbyte : ∀ n < 256, isBase64Byte (UInt8.ofNat n) = true →
      toLower 45 ≠ toLower (UInt8.ofNat n) := by decide +kernel
  have hc : toLower 45 ≠ toLower c := by
    have hcode := hbyte c.toNat c.toNat_lt
    rw [UInt8.ofNat_toNat] at hcode
    exact hcode (h.bytes c (by simp))
  exact ⟨fun hstarts => hc (hstarts.head rfl rfl), fun hstarts => hc (hstarts.head rfl rfl)⟩

def isBegin (line : Bytes) : Bool := decide (StartsWith beginKey line)
def isEnd (line : Bytes) : Bool := decide (StartsWith endKey line)

theorem noMarks_iff {lines : List Bytes} :
    NoMarks lines ↔ ∀ line ∈ lines, isBegin line = false ∧ isEnd line = false := by
  simp [NoMarks, isBegin, isEnd]

theorem marks :
    isBegin beginKey = true ∧ isBegin endKey = false ∧ isEnd endKey = true := by
  decide +kernel

/-- What a line does to the lines of the key. -/
def keyLine (st : List Bytes × Bool) (line : Bytes) : List Bytes × Bool :=
  if isBegin line then ([line], true)
  else if isEnd line then (st.1 ++ [line], false)
  else if st.2 && !isItem line then (st.1 ++ [line], true)
  else st

def keyLines (lines : List Bytes) : List Bytes := (lines.foldl keyLine ([], false)).1

theorem key_parseLine {st : PeerConfig × Bool} {key : List Bytes} (hkey : st.1.key = keyText key)
    (line : Bytes) :
    ((parseLine libc st line).1.key, (parseLine libc st line).2) =
      (keyText (keyLine (key, st.2) line).1, (keyLine (key, st.2) line).2) := by
  rw [parseLine_key, hkey, keyLine]
  simp only [← isItem_eq_false_iff]
  by_cases hbegin : StartsWith beginKey line
  · simp [isBegin, hbegin, keyText]
  · by_cases hend : StartsWith endKey line
    · simp [isBegin, isEnd, hbegin, hend, keyText]
    · cases hmode : st.2 <;> cases hitem : isItem line <;>
        simp [isBegin, isEnd, hbegin, hend, keyText]

theorem key_foldl (lines : List Bytes) {st : PeerConfig × Bool} {key : List Bytes}
    (hkey : st.1.key = keyText key) :
    (lines.foldl (parseLine libc) st).1.key = keyText (lines.foldl keyLine (key, st.2)).1 := by
  induction lines generalizing st key with
  | nil => exact hkey
  | cons line lines ih =>
    obtain ⟨hline, hmode⟩ := Prod.mk.inj (key_parseLine hkey line)
    rw [List.foldl_cons, List.foldl_cons, ih hline, hmode]

theorem key_parseSection (s : PeerSection) :
    (parseSection libc s).key = keyText (keyLines s.lines) :=
  key_foldl s.lines rfl

theorem mem_keyLine {st : List Bytes × Bool} {line l : Bytes} (h : l ∈ (keyLine st line).1) :
    l ∈ st.1 ∨ l = line := by
  unfold keyLine at h
  split_ifs at h <;> simp_all

theorem mem_keyLines {lines : List Bytes} {l : Bytes} (h : l ∈ keyLines lines) : l ∈ lines := by
  have hfold : ∀ (lines : List Bytes) (st : List Bytes × Bool),
      l ∈ (lines.foldl keyLine st).1 → l ∈ st.1 ∨ l ∈ lines := by
    intro lines
    induction lines with
    | nil => exact fun st h => .inl h
    | cons line lines ih =>
      intro st h
      rcases ih _ h with h | h
      · rcases mem_keyLine h with h | rfl
        · exact .inl h
        · exact .inr List.mem_cons_self
      · exact .inr (List.mem_cons_of_mem _ h)
  simpa using hfold lines ([], false) h

theorem foldl_inside {lines : List Bytes} (h : NoMarks lines) (key : List Bytes) :
    lines.foldl keyLine (key, true) = (key ++ lines.filter (fun line => !isItem line), true) := by
  rw [noMarks_iff] at h
  induction lines generalizing key with
  | nil => simp
  | cons line lines ih =>
    obtain ⟨⟨hbegin, hend⟩, hrest⟩ := List.forall_mem_cons.mp h
    rw [List.foldl_cons, keyLine, hbegin, hend, List.filter_cons]
    cases hitem : isItem line <;> simp [ih hrest]

theorem foldl_outside {lines : List Bytes} (h : ∀ line ∈ lines, isBegin line = false)
    (key : List Bytes) :
    lines.foldl keyLine (key, false) = (key ++ lines.filter isEnd, false) := by
  induction lines generalizing key with
  | nil => simp
  | cons line lines ih =>
    obtain ⟨hbegin, hrest⟩ := List.forall_mem_cons.mp h
    rw [List.foldl_cons, keyLine, hbegin, List.filter_cons]
    cases hend : isEnd line <;> simp [ih hrest]

/-- A block replaces the key. -/
theorem foldl_begin {first : Bytes} (h : isBegin first = true) (before rest : List Bytes)
    (st : List Bytes × Bool) :
    (before ++ first :: rest).foldl keyLine st = rest.foldl keyLine ([first], true) := by
  rw [List.foldl_append, List.foldl_cons, keyLine, if_pos h]

theorem foldl_block {first last : Bytes} {inside : List Bytes} (hfirst : isBegin first = true)
    (hinside : NoMarks inside) (hlast : isBegin last = false ∧ isEnd last = true)
    (before outside : List Bytes) (st : List Bytes × Bool) :
    (before ++ first :: (inside ++ last :: outside)).foldl keyLine st =
      outside.foldl keyLine
        (first :: (inside.filter (fun line => !isItem line) ++ [last]), false) := by
  rw [foldl_begin hfirst, List.foldl_append, foldl_inside hinside, List.foldl_cons, keyLine]
  simp [hlast]

theorem block_eq_iff {first last : Bytes} {inside outside body : List Bytes}
    (hinside : NoMarks inside) (hbody : NoMarks body) (hlast : isEnd last = true)
    (houtside : ∀ line ∈ outside, isBegin line = false) :
    first :: (inside.filter (fun line => !isItem line) ++ [last]) ++ outside.filter isEnd =
        beginKey :: (body ++ [endKey]) ↔
      first = beginKey ∧ inside.filter (fun line => !isItem line) = body ∧ last = endKey ∧
        NoMarks outside := by
  constructor
  · intro h
    simp only [List.cons_append, List.append_assoc, List.nil_append, List.cons.injEq] at h
    have hkept : ∀ line ∈ inside.filter fun line => !isItem line, isEnd line = false :=
      fun line hline => (noMarks_iff.mp hinside line (List.mem_of_mem_filter hline)).2
    obtain ⟨hsame, rfl, hnone⟩ := split_first_unique h.2 hlast marks.2.2 hkept
      fun line hline => (noMarks_iff.mp hbody line hline).2
    refine ⟨h.1, hsame, rfl, noMarks_iff.mpr fun line hline => ⟨houtside line hline, ?_⟩⟩
    simpa using List.filter_eq_nil_iff.mp hnone line hline
  · rintro ⟨rfl, rfl, rfl, hnone⟩
    have hends : outside.filter isEnd = [] := List.filter_eq_nil_iff.mpr fun line hline => by
      simp [(noMarks_iff.mp hnone line hline).2]
    rw [hends, List.append_nil]

/-- The block stays as it is where it has no item and is the last one, or the last one has
the same lines. -/
theorem keyLines_after_iff {body after : List Bytes} (hbody : NoMarks body) :
    (after.foldl keyLine
        (beginKey :: (body.filter (fun line => !isItem line) ++ [endKey]), false)).1 =
          beginKey :: (body ++ [endKey]) ↔
      (∀ line ∈ body, isItem line = false) ∧ (NoMarks after ∨ SameBlock body after) := by
  constructor
  · intro h
    by_cases hbegins : ∃ line ∈ after, isBegin line = true
    · obtain ⟨earlier, first, rest, rfl, hfirst, hrest⟩ := split_last hbegins
      by_cases hends : ∃ line ∈ rest, isEnd line = true
      · obtain ⟨inside, last, outside, rfl, hlast, hinside⟩ := split_first hends
        obtain ⟨hbegin, hlastBegin, houtside⟩ : (∀ line ∈ inside, isBegin line = false) ∧
            isBegin last = false ∧ ∀ line ∈ outside, isBegin line = false := by
          simpa only [List.forall_mem_append, List.forall_mem_cons] using hrest
        have hmarks : NoMarks inside :=
          noMarks_iff.mpr fun line hline => ⟨hbegin line hline, hinside line hline⟩
        rw [foldl_block hfirst hmarks ⟨hlastBegin, hlast⟩, foldl_outside houtside,
          block_eq_iff hmarks hbody hlast houtside] at h
        obtain ⟨rfl, hsame, rfl, hnone⟩ := h
        refine ⟨fun line hline => ?_, .inr ⟨earlier, inside, outside, rfl, hmarks, hnone, hsame⟩⟩
        rw [← hsame] at hline
        simpa using List.of_mem_filter hline
      · -- a block that is never ended has no END line
        have hopen : ∀ line ∈ rest, isEnd line = false := by simpa using hends
        have hmarks : NoMarks rest :=
          noMarks_iff.mpr fun line hline => ⟨hrest line hline, hopen line hline⟩
        rw [foldl_begin hfirst, foldl_inside hmarks] at h
        have hrestEq : rest.filter (fun line => !isItem line) = body ++ [endKey] :=
          (List.cons.inj h).2
        have hend : endKey ∈ rest.filter fun line => !isItem line := by simp [hrestEq]
        exact absurd ⟨endKey, List.mem_of_mem_filter hend, marks.2.2⟩ hends
    · have hnone : ∀ line ∈ after, isBegin line = false := by simpa using hbegins
      rw [foldl_outside hnone, block_eq_iff hbody hbody marks.2.2 hnone] at h
      obtain ⟨-, hitems, -, hafter⟩ := h
      exact ⟨by simpa [List.filter_eq_self] using hitems, .inl hafter⟩
  · rintro ⟨hitems, hafter | ⟨earlier, inside, outside, rfl, hinside, houtside, hsame⟩⟩
    · have hnone : ∀ line ∈ after, isBegin line = false := fun line hline =>
        (noMarks_iff.mp hafter line hline).1
      rw [foldl_outside hnone]
      exact (block_eq_iff hbody hbody marks.2.2 hnone).mpr
        ⟨rfl, by simpa [List.filter_eq_self] using hitems, rfl, hafter⟩
    · have hnone : ∀ line ∈ outside, isBegin line = false := fun line hline =>
        (noMarks_iff.mp houtside line hline).1
      rw [foldl_block marks.1 hinside marks.2, foldl_outside hnone]
      exact (block_eq_iff hinside hbody marks.2.2 hnone).mpr ⟨rfl, hsame, rfl, houtside⟩

/-! The other fields -/

theorem configItem_otherFields {entry : Bytes × (Bytes → PeerConfig → PeerConfig)}
    (h : entry ∈ configItems libc) (item : Bytes) (p : PeerConfig) :
    otherFields (entry.2 item p) = entry.2 item (otherFields p) := by
  revert entry
  simp [configItems, otherFields]

/-- What a line does to the fields other than the key. -/
def parseFields (libc : CLibrary) (p : PeerConfig) (line : Bytes) : PeerConfig :=
  match findItem libc line with
  | some store => store p
  | none => p

theorem otherFields_parseLine (st : PeerConfig × Bool) (line : Bytes) :
    otherFields (parseLine libc st line).1 = parseFields libc (otherFields st.1) line := by
  rw [parseLine, parseFields, parseItem_eq]
  cases hitem : findItem libc line with
  | some store =>
    obtain ⟨entry, hentry, hstore⟩ := List.exists_of_findSome?_eq_some hitem
    obtain ⟨item, -, rfl⟩ := Option.map_eq_some_iff.mp hstore
    exact configItem_otherFields hentry item st.1
  | none =>
    obtain ⟨key, hkey⟩ := parseKeyLine_key line st.1 st.2
    have hfields := congrArg otherFields hkey
    exact hfields

theorem otherFields_foldl (lines : List Bytes) (st : PeerConfig × Bool) :
    otherFields (lines.foldl (parseLine libc) st).1 =
      lines.foldl (parseFields libc) (otherFields st.1) := by
  induction lines generalizing st with
  | nil => rfl
  | cons line lines ih => rw [List.foldl_cons, ih, otherFields_parseLine, List.foldl_cons]

theorem foldl_parseFields {lines : List Bytes} (h : ∀ line ∈ lines, isItem line = false)
    (p : PeerConfig) : lines.foldl (parseFields libc) p = p := by
  induction lines with
  | nil => rfl
  | cons line lines ih =>
    obtain ⟨hline, hrest⟩ := List.forall_mem_cons.mp h
    have hnone : findItem libc line = none := findItem_none (isItem_eq_false_iff.mp hline)
    rw [List.foldl_cons, parseFields, hnone]
    exact ih hrest

theorem otherFields_parseSection {s : PeerSection} {before body after : List Bytes}
    (hlines : s.lines = before ++ beginKey :: (body ++ endKey :: after))
    (hbody : ∀ line ∈ body, isItem line = false) :
    otherFields (parseSection libc s) = otherFields (parseSection libc ⟨s.name, before ++ after⟩) := by
  have hblock : ∀ line ∈ beginKey :: (body ++ [endKey]), isItem line = false := by
    have hmarks : isItem beginKey = false ∧ isItem endKey = false := by decide +kernel
    simp only [List.forall_mem_cons, List.forall_mem_append, List.not_mem_nil, false_implies,
      implies_true, and_true]
    exact ⟨hmarks.1, hbody, hmarks.2⟩
  have hsplit : s.lines = before ++ (beginKey :: (body ++ [endKey]) ++ after) := by
    simp [hlines]
  rw [parseSection, parseSection, otherFields_foldl, otherFields_foldl, hsplit, List.foldl_append,
    List.foldl_append, foldl_parseFields hblock, List.foldl_append]

/-! The whole block -/

theorem keyText_injective {lines lines' : List Bytes} (h : ∀ line ∈ lines, lineFeed ∉ line)
    (h' : ∀ line ∈ lines', lineFeed ∉ line) (heq : keyText lines = keyText lines') :
    lines = lines' := by
  have hsplit : (keyText lines).splitOn lineFeed = lines ++ [[]] := splitOn_lines h
  rw [heq, keyText, splitOn_lines h'] at hsplit
  exact (List.append_cancel_right hsplit).symm

/-- A block of base64 lines is kept where none of its lines starts like an item and no
other line changes the key behind it. -/
theorem kept_verbatim_iff {data : Bytes} {p : PeerConfig} {s : PeerSection}
    (hpeer : (p, s) ∈ parsedSections libc data) {before body after : List Bytes}
    (hlines : s.lines = before ++ beginKey :: (body ++ endKey :: after))
    (hbody : ∀ line ∈ body, Base64Line line) :
    KeptVerbatim libc p s before body after ↔
      (∀ line ∈ body, ∀ keyword ∈ itemKeywords, ¬ StartsWith keyword line) ∧
        (NoMarks after ∨ SameBlock body after) := by
  obtain ⟨hs, rfl⟩ := mem_parsedSections hpeer
  have hmarks : NoMarks body := fun line h => (hbody line h).not_mark
  have hblock : keyLines s.lines = (after.foldl keyLine
      (beginKey :: (body.filter (fun line => !isItem line) ++ [endKey]), false)).1 := by
    rw [keyLines, hlines, foldl_block marks.1 hmarks marks.2]
  have hfeed : ∀ line ∈ s.lines, lineFeed ∉ line := fun line h => not_mem_line hs h
  have hkept : ∀ line ∈ beginKey :: (body ++ [endKey]), line ∈ s.lines := by
    intro line hline
    have hsplit : s.lines = before ++ (beginKey :: (body ++ [endKey]) ++ after) := by
      simp [hlines]
    rw [hsplit]
    exact List.mem_append_right _ (List.mem_append_left _ hline)
  have hkey : (parseSection libc s).key = keyText (beginKey :: (body ++ [endKey])) ↔
      (∀ line ∈ body, isItem line = false) ∧ (NoMarks after ∨ SameBlock body after) := by
    rw [key_parseSection, ← keyLines_after_iff hmarks, ← hblock]
    exact ⟨keyText_injective (fun line h => hfeed line (mem_keyLines h))
      fun line h => hfeed line (hkept line h), congrArg keyText⟩
  simp only [← isItem_eq_false_iff]
  rw [← hkey]
  exact ⟨fun h => h.key, fun h => ⟨h, otherFields_parseSection hlines (hkey.mp h).1⟩⟩

/-! Two blocks -/

def blockText (line : Bytes) : Bytes :=
  ascii "[beacon]\nport=700\n" ++ beginKey ++ [lineFeed] ++ line ++ [lineFeed] ++ endKey ++
    ascii "\nhidden=1\n"

def blockSection (line : Bytes) : PeerSection where
  name := ascii "beacon"
  lines := [ascii "port=700", beginKey, line, endKey, ascii "hidden=1"]

theorem kept_verbatim_plain :
    KeptVerbatim plainLibrary (parseSection plainLibrary (blockSection (ascii "MIIBCgKCAQEA")))
      (blockSection (ascii "MIIBCgKCAQEA")) [ascii "port=700"] [ascii "MIIBCgKCAQEA"]
      [ascii "hidden=1"] := by
  have hpeer : (parseSection plainLibrary (blockSection (ascii "MIIBCgKCAQEA")),
      blockSection (ascii "MIIBCgKCAQEA")) ∈
        parsedSections plainLibrary (blockText (ascii "MIIBCgKCAQEA")) := by decide +kernel
  refine (kept_verbatim_iff hpeer rfl ?_).mpr ⟨by decide +kernel, .inl ?_⟩
  · intro line hline
    rw [List.mem_singleton.mp hline]
    exact ⟨by decide, by decide⟩
  · exact noMarks_iff.mpr (by decide +kernel)

/-- A line of eight bytes with one byte of padding, which is taken as a network. -/
theorem padded_line_lost :
    (parseSection plainLibrary (blockSection (ascii "Network=")),
        blockSection (ascii "Network=")) ∈
      parsedSections plainLibrary (blockText (ascii "Network=")) ∧
    Base64Line (ascii "Network=") ∧
    ¬ KeptVerbatim plainLibrary (parseSection plainLibrary (blockSection (ascii "Network=")))
      (blockSection (ascii "Network=")) [ascii "port=700"] [ascii "Network="]
      [ascii "hidden=1"] := by
  refine ⟨by decide +kernel, ⟨by decide, by decide⟩, ?_⟩
  intro hkept
  have hkey := hkept.key
  revert hkey
  decide +kernel

end ChaosVpn.KeyBlocks
