import ChaosVpn.PeerParser
import ChaosVpn.Library.TextLines

/-! What parser_parse_line does with a line of a known form: a header, an item, the
lines of a key. -/

namespace ChaosVpn.ParserLines
open CStrings Libc AddrMask PeerParser TextLines

/-! Lines that str_trim leaves alone -/

structure Trimmed (s : Bytes) : Prop where
  start : ∀ c, s.head? = some c → isSpace c = false
  stop : ∀ c, s.getLast? = some c → isSpace c = false

theorem Trimmed.nil : Trimmed [] := ⟨by simp, by simp⟩

theorem dropWhile_of_head {s : Bytes} (h : ∀ c, s.head? = some c → isSpace c = false) :
    s.dropWhile isSpace = s := by
  cases s with
  | nil => rfl
  | cons c cs => simp [h c rfl]

theorem strTrim_trimmed {s : Bytes} (h : Trimmed s) : strTrim s = s := by
  rw [strTrim, strSkipSpaces, dropWhile_of_head h.start, dropWhile_of_head, List.reverse_reverse]
  simpa using h.stop

theorem Trimmed.append {a b : Bytes} (ha : Trimmed a) (hb : Trimmed b) (hne : a ≠ []) :
    Trimmed (a ++ b) := by
  constructor
  · intro c hc
    rw [List.head?_append_of_ne_nil _ hne] at hc
    exact ha.start c hc
  · intro c hc
    by_cases hempty : b = []
    · rw [hempty, List.append_nil] at hc
      exact ha.stop c hc
    · rw [List.getLast?_append_of_ne_nil _ hempty] at hc
      exact hb.stop c hc

/-! Items -/

/-- A line that starts with a keyword, whatever the case of the letters. -/
def StartsWith (keyword line : Bytes) : Prop := keyword.map toLower <+: line.map toLower

instance (keyword line : Bytes) : Decidable (StartsWith keyword line) :=
  inferInstanceAs (Decidable (_ <+: _))

theorem startsWith_append (keyword rest : Bytes) : StartsWith keyword (keyword ++ rest) := by
  simp [StartsWith]

theorem StartsWith.head {keyword line : Bytes} (h : StartsWith keyword line) {k c : UInt8}
    (hk : keyword.head? = some k) (hc : line.head? = some c) : toLower k = toLower c := by
  obtain ⟨rest, hrest⟩ := h
  cases keyword with
  | nil => cases hk
  | cons k' keyword =>
    cases line with
    | nil => cases hc
    | cons c' line =>
      cases hk
      cases hc
      exact (List.cons.inj hrest).1

theorem parserCheckConfigitem_eq (line config : Bytes) :
    parserCheckConfigitem line config =
      if StartsWith config line then some (line.drop config.length) else none := by
  have hiff : strncasecmp line config config.length = true ↔ StartsWith config line := by
    rw [strncasecmp, strcasecmp, beq_iff_eq, List.take_length, List.map_take, eq_comm,
      StartsWith, List.prefix_iff_eq_take, List.length_map]
  unfold parserCheckConfigitem
  by_cases h : StartsWith config line
  · rw [if_pos (hiff.mpr h), if_pos h]
  · rw [if_neg (mt hiff.mp h), if_neg h]

/-- Two keywords that no line starts with both of. -/
def Apart (a b : Bytes) : Prop :=
  ¬ a.map toLower <+: b.map toLower ∧ ¬ b.map toLower <+: a.map toLower

instance (a b : Bytes) : Decidable (Apart a b) := inferInstanceAs (Decidable (_ ∧ _))

theorem Apart.not_startsWith {a b line : Bytes} (h : Apart a b) (ha : StartsWith a line) :
    ¬ StartsWith b line := by
  intro hb
  rcases Nat.le_total (a.map toLower).length (b.map toLower).length with hle | hle
  · exact h.1 (List.prefix_of_prefix_length_le ha hb hle)
  · exact h.2 (List.prefix_of_prefix_length_le hb ha hle)

variable {libc : CLibrary}

def itemKeywords : List Bytes :=
  [ascii "gatewayhost=", ascii "owner=", ascii "use-tcp-only=", ascii "network=",
   ascii "network6=", ascii "route_network=", ascii "route_network6=", ascii "hidden=",
   ascii "silent=", ascii "port=", ascii "indirectdata=", ascii "cipher=", ascii "compression=",
   ascii "digest=", ascii "primary=", ascii "ed25519publickey=", ascii "pingtest="]

theorem keywords_configItems (libc : CLibrary) : (configItems libc).map Prod.fst = itemKeywords :=
  rfl

theorem itemKeywords_apart : itemKeywords.Pairwise Apart := by
  decide +kernel

def findItem (libc : CLibrary) (line : Bytes) : Option (PeerConfig → PeerConfig) :=
  (configItems libc).findSome? fun (config, store) =>
    (parserCheckConfigitem line config).map store

theorem findSome_item {items : List (Bytes × (Bytes → PeerConfig → PeerConfig))}
    (hapart : (items.map Prod.fst).Pairwise Apart)
    {entry : Bytes × (Bytes → PeerConfig → PeerConfig)} (hentry : entry ∈ items) {line : Bytes}
    (hstarts : StartsWith entry.1 line) :
    (items.findSome? fun (config, store) => (parserCheckConfigitem line config).map store) =
      some (entry.2 (line.drop entry.1.length)) := by
  induction items with
  | nil => cases hentry
  | cons other items ih =>
    rw [List.map_cons, List.pairwise_cons] at hapart
    rw [List.findSome?_cons]
    rcases List.mem_cons.mp hentry with rfl | hmem
    · simp [parserCheckConfigitem_eq, hstarts]
    · have hother : ¬ StartsWith other.1 line := fun h =>
        (hapart.1 entry.1 (List.mem_map_of_mem hmem)).not_startsWith h hstarts
      simp only [parserCheckConfigitem_eq line other.1, if_neg hother, Option.map_none]
      exact ih hapart.2 hmem

theorem findItem_eq {entry : Bytes × (Bytes → PeerConfig → PeerConfig)}
    (hentry : entry ∈ configItems libc) {line : Bytes} (hstarts : StartsWith entry.1 line) :
    findItem libc line = some (entry.2 (line.drop entry.1.length)) :=
  findSome_item (keywords_configItems libc ▸ itemKeywords_apart) hentry hstarts

theorem findItem_none {line : Bytes} (h : ∀ keyword ∈ itemKeywords, ¬ StartsWith keyword line) :
    findItem libc line = none := by
  rw [findItem, List.findSome?_eq_none_iff]
  intro entry hentry
  have hkeyword := h entry.1 (keywords_configItems libc ▸ List.mem_map_of_mem hentry)
  simp [parserCheckConfigitem_eq, hkeyword]

/-- The first of the items decides, a line with none of them may belong to a key. -/
theorem parseItem_eq (line : Bytes) (p : PeerConfig) (keyMode : Bool) :
    parseItem libc line p keyMode =
      match findItem libc line with
      | some store => (store p, keyMode)
      | none => parseKeyLine line p keyMode := rfl

/-! Whole lines -/

theorem headerName_of_head {line : Bytes} (h : line.head? ≠ some 91) : headerName line = none := by
  rw [headerName, if_neg]
  exact fun hheader => h hheader.2.1

theorem headerName_brackets (name : Bytes) :
    headerName (ascii "[" ++ name ++ ascii "]") = some name := by
  have hline : ascii "[" ++ name ++ ascii "]" = 91 :: (name ++ [93]) := rfl
  have hlast : (91 :: (name ++ [93])).getLast? = some 93 := by
    rw [← List.cons_append]
    exact List.getLast?_concat
  rw [hline, headerName, if_pos ⟨by simp, rfl, hlast⟩]
  simp

theorem trimmed_brackets (name : Bytes) : Trimmed (ascii "[" ++ name ++ ascii "]") := by
  refine ⟨?_, ?_⟩
  · intro c hc
    obtain rfl : 91 = c := by simpa [ascii] using hc
    rfl
  · intro c hc
    rw [List.getLast?_append_of_ne_nil _ (by decide)] at hc
    obtain rfl : 93 = c := by simpa [ascii] using hc
    rfl

theorem parserParseLine_header (st : ParserState) {token name : Bytes}
    (h : headerName (strTrim token) = some name) :
    parserParseLine libc st token = ⟨peers st, some (parserCreateConfig name), false⟩ := by
  simp only [parserParseLine, h]

theorem parserParseLine_brackets (st : ParserState) (name : Bytes) :
    parserParseLine libc st (ascii "[" ++ name ++ ascii "]") =
      ⟨peers st, some (parserCreateConfig name), false⟩ := by
  refine parserParseLine_header st ?_
  rw [strTrim_trimmed (trimmed_brackets name)]
  exact headerName_brackets name

theorem parserParseLine_item (complete : List PeerConfig) (p : PeerConfig) (keyMode : Bool)
    {token : Bytes} (h : headerName (strTrim token) = none) :
    parserParseLine libc ⟨complete, some p, keyMode⟩ token =
      ⟨complete, some (parseItem libc (strTrim token) p keyMode).1,
        (parseItem libc (strTrim token) p keyMode).2⟩ := by
  simp only [parserParseLine, h]

/-- A line `keyword=value` of a known keyword, which may be written in any case. -/
theorem parserParseLine_entry {entry : Bytes × (Bytes → PeerConfig → PeerConfig)}
    (hentry : entry ∈ configItems libc) {keyword value : Bytes}
    (hkeyword : keyword.map toLower = entry.1.map toLower) (htrimmed : Trimmed (keyword ++ value))
    (hhead : (keyword ++ value).head? ≠ some 91)
    (complete : List PeerConfig) (p : PeerConfig) (keyMode : Bool) :
    parserParseLine libc ⟨complete, some p, keyMode⟩ (keyword ++ value) =
      ⟨complete, some (entry.2 value p), keyMode⟩ := by
  have htrim : strTrim (keyword ++ value) = keyword ++ value := strTrim_trimmed htrimmed
  have hstarts : StartsWith entry.1 (keyword ++ value) := by
    rw [StartsWith, ← hkeyword]
    exact startsWith_append keyword value
  have hlength : entry.1.length = keyword.length := by
    simpa using (congrArg List.length hkeyword).symm
  rw [parserParseLine_item complete p keyMode (headerName_of_head (by rwa [htrim])), htrim,
    parseItem_eq, findItem_eq hentry hstarts, hlength, List.drop_left]

/-! Keys -/

theorem parserParseLine_keyLine {line : Bytes} (htrimmed : Trimmed line)
    (hhead : line.head? ≠ some 91) (hitem : ∀ keyword ∈ itemKeywords, ¬ StartsWith keyword line)
    (complete : List PeerConfig) (p : PeerConfig) (keyMode : Bool) :
    parserParseLine libc ⟨complete, some p, keyMode⟩ line =
      ⟨complete, some (parseKeyLine line p keyMode).1, (parseKeyLine line p keyMode).2⟩ := by
  have htrim := strTrim_trimmed htrimmed
  rw [parserParseLine_item complete p keyMode (headerName_of_head (by rwa [htrim])), htrim,
    parseItem_eq, findItem_none hitem]

theorem parseKeyLine_eq (line : Bytes) (p : PeerConfig) (keyMode : Bool) :
    parseKeyLine line p keyMode =
      if StartsWith beginKey line then ({ p with key := line ++ [lineFeed] }, true)
      else if StartsWith endKey line then (parserExtendKey line p, false)
      else if keyMode then (parserExtendKey line p, true)
      else (p, false) := by
  unfold parseKeyLine
  rw [parserCheckConfigitem_eq, parserCheckConfigitem_eq]
  by_cases hbegin : StartsWith beginKey line <;> by_cases hend : StartsWith endKey line <;>
    simp [hbegin, hend]

/-- No item starts with another sign than those that the keywords start with. -/
theorem not_startsWith_item {line : Bytes} {c : UInt8}
    (hc : ∀ keyword ∈ itemKeywords,
      keyword.head?.map (fun k => decide (toLower k ≠ toLower c)) = some true)
    (h : line.head? = some c) : ∀ keyword ∈ itemKeywords, ¬ StartsWith keyword line := by
  intro keyword hkeyword hstarts
  obtain ⟨k, hk, hne⟩ := Option.map_eq_some_iff.mp (hc keyword hkeyword)
  exact of_decide_eq_true hne (hstarts.head hk h)

/-- No item starts with the dash that the first and the last line of a key start with. -/
theorem not_startsWith_item_of_dash {line : Bytes} (h : line.head? = some 45) :
    ∀ keyword ∈ itemKeywords, ¬ StartsWith keyword line :=
  not_startsWith_item (by decide +kernel) h

/-- Whatever parser_check_configitem takes for an item is stored as that item. -/
theorem parserParseLine_checked {entry : Bytes × (Bytes → PeerConfig → PeerConfig)}
    (hentry : entry ∈ configItems libc) {token item : Bytes}
    (h : parserCheckConfigitem (strTrim token) entry.1 = some item)
    (complete : List PeerConfig) (p : PeerConfig) (keyMode : Bool) :
    parserParseLine libc ⟨complete, some p, keyMode⟩ token =
      ⟨complete, some (entry.2 item p), keyMode⟩ := by
  rw [parserCheckConfigitem_eq] at h
  split at h
  · rename_i hstarts
    have hkeyword : entry.1 ∈ itemKeywords :=
      keywords_configItems libc ▸ List.mem_map_of_mem hentry
    have hhead : (strTrim token).head? ≠ some 91 := fun hbracket =>
      not_startsWith_item (by decide +kernel) hbracket entry.1 hkeyword hstarts
    rw [parserParseLine_item complete p keyMode (headerName_of_head hhead), parseItem_eq,
      findItem_eq hentry hstarts, Option.some.inj h]
  · cases h

/-- A line of a key between its first and its last line. -/
structure KeyBodyLine (line : Bytes) : Prop where
  trimmed : Trimmed line
  header : line.head? ≠ some 91
  keywords : ∀ keyword ∈ itemKeywords ++ [beginKey, endKey], ¬ StartsWith keyword line

theorem foldl_keyBody {body : List Bytes} (hbody : ∀ line ∈ body, KeyBodyLine line)
    (complete : List PeerConfig) (p : PeerConfig) :
    body.foldl (parserParseLine libc) ⟨complete, some p, true⟩ =
      ⟨complete, some { p with key := p.key ++ body.flatMap (· ++ [lineFeed]) }, true⟩ := by
  induction body generalizing p with
  | nil => simp
  | cons line body ih =>
    have hline := hbody line (by simp)
    have hbegin := hline.keywords beginKey (by simp)
    have hend := hline.keywords endKey (by simp)
    rw [List.foldl_cons, parserParseLine_keyLine hline.trimmed hline.header
      (fun keyword hkeyword => hline.keywords keyword (by simp [hkeyword])), parseKeyLine_eq,
      if_neg hbegin, if_neg hend, if_pos rfl, ih fun l hl => hbody l (by simp [hl])]
    simp [parserExtendKey]

/-- A whole key replaces the one before. -/
theorem foldl_key {first last : Bytes} {body : List Bytes} (hfirst : beginKey <+: first)
    (hfirstTrimmed : Trimmed first) (hlast : endKey <+: last) (hlastTrimmed : Trimmed last)
    (hbody : ∀ line ∈ body, KeyBodyLine line) (complete : List PeerConfig) (p : PeerConfig)
    (keyMode : Bool) :
    (first :: (body ++ [last])).foldl (parserParseLine libc) ⟨complete, some p, keyMode⟩ =
      ⟨complete, some { p with key := (first :: (body ++ [last])).flatMap (· ++ [lineFeed]) },
        false⟩ := by
  obtain ⟨rest, rfl⟩ := hfirst
  obtain ⟨tail, rfl⟩ := hlast
  have hbegin : StartsWith beginKey (beginKey ++ rest) := startsWith_append _ _
  have hend : StartsWith endKey (endKey ++ tail) := startsWith_append _ _
  have hnotBegin : ¬ StartsWith beginKey (endKey ++ tail) :=
    Apart.not_startsWith (by decide) hend
  rw [List.foldl_cons, parserParseLine_keyLine hfirstTrimmed (by simp [beginKey, ascii])
    (not_startsWith_item_of_dash rfl), parseKeyLine_eq, if_pos hbegin, List.foldl_append,
    foldl_keyBody hbody, List.foldl_cons, parserParseLine_keyLine hlastTrimmed
    (by simp [endKey, ascii]) (not_startsWith_item_of_dash rfl), parseKeyLine_eq, if_neg hnotBegin,
    if_pos hend]
  simp [parserExtendKey]

end ChaosVpn.ParserLines
