import ChaosVpn.ArMembers

/-! Archives as the backend writes them, header field by header field, and what
ar_extract finds in them. -/

namespace ChaosVpn.ArEncoding
open CStrings Numerals StringBuffer ArArchive ArMembers

def padded (width : Nat) (text : Bytes) : Bytes :=
  text ++ List.replicate (width - text.length) space

structure FileMember where
  name : Bytes
  slashed : Bool
  date : Bytes
  uid : Bytes
  gid : Bytes
  mode : Bytes
  data : Bytes
  padding : UInt8
  name_nonempty : name ≠ []
  name_plain : ∀ c ∈ name, c ≠ 0 ∧ c ≠ space ∧ c ≠ slash
  name_fits : name.length + slashed.toNat ≤ 16
  date_length : date.length = 12
  uid_length : uid.length = 6
  gid_length : gid.length = 6
  mode_length : mode.length = 8
  data_length : data.length < 10000000000

def FileMember.nameText (m : FileMember) : Bytes :=
  if m.slashed then m.name ++ [slash] else m.name

def FileMember.header (m : FileMember) : Bytes :=
  padded 16 m.nameText ++ m.date ++ m.uid ++ m.gid ++ m.mode ++
    padded 10 (decimal m.data.length) ++ arfmag

def FileMember.bytes (m : FileMember) : Bytes :=
  m.header ++ m.data ++ List.replicate (m.data.length % 2) m.padding

def encode (members : List FileMember) : Bytes :=
  armag ++ members.flatMap FileMember.bytes

/-! Padded fields -/

theorem length_padded {width : Nat} {text : Bytes} (h : text.length ≤ width) :
    (padded width text).length = width := by
  rw [padded, List.length_append, List.length_replicate]
  omega

theorem fieldText_padded {text : Bytes} (h : space ∉ text) (width : Nat) :
    fieldText (padded width text) = text := by
  refine takeWhile_append_stop (fun c hc => decide_eq_true fun heq => h (heq ▸ hc)) ?_
  intro c hc
  rw [List.eq_of_mem_replicate (List.mem_of_mem_head? hc)]
  rfl

theorem space_of_mem_padding {text : Bytes} (h : space ∉ text) {width : Nat} {c : UInt8}
    (hc : c ∈ (padded width text).dropWhile (· ≠ space)) : c = space := by
  have htext : ∀ b ∈ text, decide (b ≠ space) = true :=
    fun b hb => decide_eq_true fun heq => h (heq ▸ hb)
  rw [padded, List.dropWhile_append_of_pos htext] at hc
  exact List.eq_of_mem_replicate ((List.dropWhile_sublist _).subset hc)

theorem paddedNumeral_decimal (n width : Nat) : PaddedNumeral (padded width (decimal n)) n := by
  have hspace : space ∉ decimal n := fun hmem => absurd (isDigit_of_mem_decimal hmem) (by decide)
  refine ⟨?_, ?_, fun c hc => space_of_mem_padding hspace hc⟩
  · rw [fieldText_padded hspace, strAlldig_iff]
    exact ⟨decimal_ne_nil n, fun d hd => isDigit_of_mem_decimal hd⟩
  · rw [fieldText_padded hspace, digitsValue_decimal]

/-! The members as ar_extract takes them -/

theorem length_nameText (m : FileMember) : m.nameText.length = m.name.length + m.slashed.toNat := by
  unfold FileMember.nameText
  cases m.slashed <;> simp

theorem mem_nameText {m : FileMember} {c : UInt8} (h : c ∈ m.nameText) : c ≠ 0 ∧ c ≠ space := by
  have hname : c ∈ m.name → c ≠ 0 ∧ c ≠ space :=
    fun hc => ⟨(m.name_plain c hc).1, (m.name_plain c hc).2.1⟩
  unfold FileMember.nameText at h
  cases hslashed : m.slashed with
  | false =>
    rw [hslashed, if_neg Bool.false_ne_true] at h
    exact hname h
  | true =>
    rw [hslashed, if_pos rfl, List.mem_append, List.mem_singleton] at h
    rcases h with h | rfl
    · exact hname h
    · decide

theorem memberName_nameText (m : FileMember) : memberName (padded 16 m.nameText) = m.name := by
  have hspace : space ∉ m.nameText := fun h => (mem_nameText h).2 rfl
  rw [memberName, fieldText_padded hspace]
  unfold FileMember.nameText
  cases m.slashed with
  | false =>
    rw [if_neg Bool.false_ne_true, if_neg]
    intro hlast
    exact (m.name_plain slash (List.mem_of_getLast? hlast)).2.2 rfl
  | true => simp

theorem zero_not_mem_nameText (m : FileMember) : (0 : UInt8) ∉ padded 16 m.nameText := by
  rw [padded, List.mem_append]
  rintro (h | h)
  · exact (mem_nameText h).1 rfl
  · exact absurd (List.eq_of_mem_replicate h) (by decide)

def FileMember.member (m : FileMember) : Member where
  arName := padded 16 m.nameText
  between := m.date ++ m.uid ++ m.gid ++ m.mode
  arSize := padded 10 (decimal m.data.length)
  data := m.data
  padding := List.replicate (m.data.length % 2) m.padding
  arName_length := length_padded (by rw [length_nameText]; exact m.name_fits)
  between_length := by
    rw [List.length_append, List.length_append, List.length_append, m.date_length, m.uid_length,
      m.gid_length, m.mode_length]
  arSize_length := length_padded (length_decimal_le (by decide) m.data_length)
  arSize_numeral := paddedNumeral_decimal _ _
  padding_length := List.length_replicate

theorem bytes_member (m : FileMember) : m.member.bytes = m.bytes := by
  simp only [Member.bytes, FileMember.member, FileMember.bytes, FileMember.header,
    List.append_assoc]

theorem name_member (m : FileMember) : m.member.name = m.name :=
  memberName_nameText m

theorem encode_split (before : List FileMember) (member : FileMember) (rest : List FileMember) :
    encode (before ++ member :: rest) =
      armag ++ ((before.map FileMember.member).flatMap Member.bytes ++ member.member.bytes ++
        rest.flatMap FileMember.bytes) := by
  simp only [encode, List.flatMap_append, List.flatMap_cons, List.flatMap_map, bytes_member,
    List.append_assoc]

theorem arExtract_split (before : List FileMember) (member : FileMember) (rest : List FileMember)
    (hbefore : ∀ m ∈ before, m.name ≠ member.name) :
    arExtract (encode (before ++ member :: rest)) member.name =
      (true, stringConcatb ⟨none⟩ member.data) := by
  rw [encode_split, ← name_member member]
  refine arExtract_member _ _ _ ?_ ?_
  · intro m hm
    rw [← List.map_singleton, ← List.map_append] at hm
    obtain ⟨file, -, rfl⟩ := List.mem_map.mp hm
    exact zero_not_mem_nameText file
  · intro m hm
    obtain ⟨file, hfile, rfl⟩ := List.mem_map.mp hm
    rw [name_member, name_member]
    exact hbefore file hfile

/-- Every name of a well-formed archive is found, with the data of its first member. -/
theorem arExtract_encode (members : List FileMember) (name : Bytes)
    (h : name ∈ members.map FileMember.name) :
    (arExtract (encode members) name).1 = true ∧
      (members.find? fun m => m.name == name).map FileMember.data =
        some (content (arExtract (encode members) name).2) := by
  obtain ⟨file, hfile, hname⟩ := List.mem_map.mp h
  cases hfind : members.find? fun m => m.name == name with
  | none =>
    have hmissed : ¬ file.name = name := by simpa using List.find?_eq_none.mp hfind file hfile
    exact absurd hname hmissed
  | some member =>
    obtain ⟨hmember, before, rest, rfl, hbefore⟩ := List.find?_eq_some_iff_append.mp hfind
    obtain rfl := beq_iff_eq.mp hmember
    rw [arExtract_split before member rest fun m hm => by simpa using hbefore m hm]
    refine ⟨rfl, ?_⟩
    rw [content_stringConcatb]
    rfl

/-- The parts of a download, the last one of odd length and with a full name. -/
def downloadMembers : List FileMember :=
  [{ name := ascii "chaosvpn-version", slashed := false, date := ascii "0           ",
     uid := ascii "0     ", gid := ascii "0     ", mode := ascii "644     ", data := ascii "3\n",
     padding := lineFeed, name_nonempty := by decide, name_plain := by decide +kernel,
     name_fits := by decide, date_length := rfl, uid_length := rfl, gid_length := rfl,
     mode_length := rfl, data_length := by decide },
   { name := ascii "cleartext", slashed := true, date := ascii "0           ",
     uid := ascii "0     ", gid := ascii "0     ", mode := ascii "644     ",
     data := ascii "[office]\n" ++ ascii "gatewayhost=vpn.example\n",
     padding := lineFeed, name_nonempty := by decide, name_plain := by decide +kernel,
     name_fits := by decide, date_length := rfl, uid_length := rfl, gid_length := rfl,
     mode_length := rfl, data_length := by decide }]

theorem arExtract_encode_cleartext :
    (arExtract (encode downloadMembers) (ascii "cleartext")).1 = true ∧
      (downloadMembers.find? fun m => m.name == ascii "cleartext").map FileMember.data =
        some (content (arExtract (encode downloadMembers) (ascii "cleartext")).2) :=
  arExtract_encode downloadMembers (ascii "cleartext") (by decide)

end ChaosVpn.ArEncoding
