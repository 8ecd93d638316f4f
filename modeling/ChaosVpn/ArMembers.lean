import ChaosVpn.RequestConfig
import ChaosVpn.Numerals

/-! What ar_extract finds in an archive. The walk is split into the members that pass
the checks of the code, and the well-formed members are among these. -/

namespace ChaosVpn.ArMembers
open CStrings Numerals StringBuffer HttpReceive ArArchive Settings RequestConfig

/-! Well-formed members -/

/-- Decimal digits with nothing but blanks behind them. -/
def PaddedNumeral (field : Bytes) (n : Nat) : Prop :=
  strAlldig (fieldText field) = true ∧ digitsValue (fieldText field) = n ∧
    ∀ c ∈ field.dropWhile (· ≠ space), c = space

instance (field : Bytes) (n : Nat) : Decidable (PaddedNumeral field n) :=
  inferInstanceAs (Decidable (_ ∧ _ ∧ _))

/-- The field up to its first blank and without one slash at the end. -/
def memberName (arName : Bytes) : Bytes :=
  if (fieldText arName).getLast? = some slash then (fieldText arName).dropLast
  else fieldText arName

structure Member where
  arName : Bytes
  between : Bytes
  arSize : Bytes
  data : Bytes
  padding : Bytes
  arName_length : arName.length = 16
  between_length : between.length = 32
  arSize_length : arSize.length = 10
  arSize_numeral : PaddedNumeral arSize data.length
  padding_length : padding.length = data.length % 2

def Member.bytes (m : Member) : Bytes :=
  m.arName ++ m.between ++ m.arSize ++ arfmag ++ m.data ++ m.padding

def Member.name (m : Member) : Bytes := memberName m.arName

/-- The text starts with well-formed members, the first one of the name with the data. -/
def FirstMember (name text data : Bytes) : Prop :=
  ∃ (before : List Member) (member : Member) (rest : Bytes),
    text = before.flatMap Member.bytes ++ member.bytes ++ rest ∧
      (∀ m ∈ before, m.name ≠ name) ∧ member.name = name ∧ member.data = data

def ArchiveMember (archive name data : Bytes) : Prop :=
  ∃ text, archive = armag ++ text ∧ FirstMember name text data

/-! The members as the code checks them -/

structure Entry where
  arName : Bytes
  arSize : Bytes
  data : Bytes

def Entry.Numeral (e : Entry) : Prop := PaddedNumeral e.arSize e.data.length

instance (e : Entry) : Decidable e.Numeral := inferInstanceAs (Decidable (PaddedNumeral _ _))

def Member.entry (m : Member) : Entry := ⟨m.arName, m.arSize, m.data⟩

/-- A member that passes the checks, and what follows it. -/
def nextEntry (pos : Bytes) : Option (Entry × Bytes) :=
  if pos.length < arHdrSize then none
  else if (arHdr pos).arFmag ≠ arfmag then none
  else
    (arParseheaderlength (arHdr pos).arSize).bind fun memberlen =>
      if memberlen + memberlen % 2 > (pos.drop arHdrSize).length then none
      else some (⟨(arHdr pos).arName, (arHdr pos).arSize, (pos.drop arHdrSize).take memberlen⟩,
        (pos.drop arHdrSize).drop (memberlen + memberlen % 2))

/-- The members, and whether the text ends right behind the last one. -/
def entries : Nat → Bytes → List Entry × Bool
  | 0, _ => ([], false)
  | fuel + 1, pos =>
    match nextEntry pos with
    | none => ([], false)
    | some (entry, rest) =>
      if rest.isEmpty then ([entry], true)
      else (entry :: (entries fuel rest).1, (entries fuel rest).2)

def archiveEntries (archive : Bytes) : List Entry × Bool :=
  if arIsArFile archive then entries archive.length (archive.drop armag.length) else ([], false)

/-- The archive does not end behind a member with the name not met, and the first
member that the comparison takes has the data of the first one with the name, all
lengths up to that one being numerals. -/
def Unambiguous (archive name : Bytes) : Prop :=
  match (archiveEntries archive).1.find? fun e => arCompareName e.arName name with
  | none => (archiveEntries archive).2 = false
  | some entry =>
    ∃ named, ((archiveEntries archive).1.takeWhile fun e => e.Numeral).find?
      (fun e => memberName e.arName == name) = some named ∧ named.data = entry.data

theorem arExtractMember_succ (name : Bytes) (fuel : Nat) (pos : Bytes) :
    arExtractMember name (fuel + 1) pos =
      match nextEntry pos with
      | none => (false, ⟨none⟩)
      | some (entry, rest) =>
        if arCompareName entry.arName name then (true, stringConcatb ⟨none⟩ entry.data)
        else if rest.isEmpty then (true, ⟨none⟩) else arExtractMember name fuel rest := by
  rw [arExtractMember, nextEntry]
  by_cases hlen : pos.length < arHdrSize
  · simp only [if_pos hlen]
  · by_cases hfmag : (arHdr pos).arFmag ≠ arfmag
    · simp only [if_neg hlen, if_pos hfmag]
    · simp only [if_neg hlen, if_neg hfmag]
      cases arParseheaderlength (arHdr pos).arSize with
      | none => rfl
      | some memberlen =>
        simp only [Option.bind_some]
        by_cases hrest : memberlen + memberlen % 2 > (pos.drop arHdrSize).length
        · simp only [if_pos hrest]
        · simp only [if_neg hrest]

theorem arExtractMember_entries (name : Bytes) (fuel : Nat) (pos : Bytes) :
    arExtractMember name fuel pos =
      match (entries fuel pos).1.find? fun e => arCompareName e.arName name with
      | none => ((entries fuel pos).2, ⟨none⟩)
      | some entry => (true, stringConcatb ⟨none⟩ entry.data) := by
  induction fuel generalizing pos with
  | zero => rfl
  | succ fuel ih =>
    rw [arExtractMember_succ, entries]
    rcases nextEntry pos with _ | ⟨entry, rest⟩
    · rfl
    · cases hname : arCompareName entry.arName name <;> cases hrest : rest.isEmpty <;>
        simp [hname, hrest, ih]

theorem arExtract_entries (archive name : Bytes) :
    arExtract archive name =
      match (archiveEntries archive).1.find? fun e => arCompareName e.arName name with
      | none => ((archiveEntries archive).2, ⟨none⟩)
      | some entry => (true, stringConcatb ⟨none⟩ entry.data) := by
  unfold arExtract archiveEntries
  cases arIsArFile archive with
  | false => rfl
  | true => exact arExtractMember_entries name _ _

/-! Well-formed members pass the checks -/

theorem arParseheaderlength_numeral {field : Bytes} {n : Nat} (hlength : field.length = 10)
    (h : PaddedNumeral field n) : arParseheaderlength field = some n := by
  obtain ⟨halldig, hvalue, hblanks⟩ := h
  obtain ⟨hne, hdigits⟩ := strAlldig_iff.mp halldig
  have hnul : (0 : UInt8) ∉ field := by
    intro hzero
    rw [← List.takeWhile_append_dropWhile (p := (· ≠ space)) (l := field)] at hzero
    rcases List.mem_append.mp hzero with hzero | hzero
    · exact absurd (hdigits 0 hzero) (by decide)
    · exact absurd (hblanks 0 hzero) (by decide)
  have hfits : (fieldText field).length ≤ 18 :=
    Nat.le_trans (List.takeWhile_prefix _).length_le (by omega)
  rw [arParseheaderlength, if_neg hnul, strtol_digits hne hdigits hfits, hvalue]
  have hpos : ¬ (n : Int) < 0 := by omega
  simp [hpos]

theorem drop_eq_field (text : Bytes) (start length : Nat) :
    text.drop start = (text.drop start).take length ++ text.drop (start + length) := by
  rw [← List.drop_drop, List.take_append_drop]

theorem nextEntry_member (m : Member) (rest : Bytes) :
    nextEntry (m.bytes ++ rest) = some (m.entry, rest) := by
  have hname := m.arName_length
  have hbetween := m.between_length
  have hsize := m.arSize_length
  have hpadding := m.padding_length
  have hparse := arParseheaderlength_numeral hsize m.arSize_numeral
  have hfmag : arfmag.length = 2 := rfl
  have hbytes : m.bytes ++ rest = m.arName ++ (m.between ++ (m.arSize ++ (arfmag ++
      (m.data ++ m.padding ++ rest)))) := by
    simp only [Member.bytes, List.append_assoc]
  have h48 : (m.bytes ++ rest).drop 48 = m.arSize ++ (arfmag ++ (m.data ++ m.padding ++ rest)) := by
    rw [hbytes, ← List.append_assoc]
    exact List.drop_left' (by rw [List.length_append, hname, hbetween])
  have h58 : (m.bytes ++ rest).drop 58 = arfmag ++ (m.data ++ m.padding ++ rest) := by
    rw [← List.drop_drop (i := 10) (j := 48), h48, List.drop_left' hsize]
  have hhdr : arHdr (m.bytes ++ rest) = ⟨m.arName, m.arSize, arfmag⟩ := by
    rw [arHdr, h48, h58, hbytes, List.take_left' hname, List.take_left' hsize,
      List.take_left' hfmag]
  have hdrop : (m.bytes ++ rest).drop arHdrSize = m.data ++ m.padding ++ rest := by
    rw [arHdrSize, ← List.drop_drop (i := 2) (j := 58), h58, List.drop_left' hfmag]
  have hlen : ¬ (m.bytes ++ rest).length < arHdrSize := by
    simp only [Member.bytes, List.length_append, arHdrSize]
    omega
  have hfits : ¬ m.data.length + m.data.length % 2 > (m.data ++ m.padding ++ rest).length := by
    simp only [List.length_append]
    omega
  have hskip : (m.data ++ m.padding ++ rest).drop (m.data.length + m.data.length % 2) = rest := by
    rw [← hpadding, ← List.length_append, List.drop_left]
  rw [nextEntry, if_neg hlen, hhdr, hdrop, if_neg (by simp), hparse, Option.bind_some,
    if_neg hfits, hskip]
  simp [Member.entry]

theorem arCompareName_eq {arName : Bytes} (h : (0 : UInt8) ∉ arName) (name : Bytes) :
    arCompareName arName name = (memberName arName == name) := by
  rw [arCompareName, if_neg h]
  rfl

theorem Member.length_bytes (m : Member) : 60 ≤ m.bytes.length := by
  have hname := m.arName_length
  have hbetween := m.between_length
  have hsize := m.arSize_length
  have hfmag : arfmag.length = 2 := rfl
  simp only [Member.bytes, List.length_append]
  omega

/-- A well-formed member is extracted, unless a name field with a NUL byte is met. -/
theorem arExtract_member (before : List Member) (member : Member) (rest : Bytes)
    (hnul : ∀ m ∈ before ++ [member], (0 : UInt8) ∉ m.arName)
    (hbefore : ∀ m ∈ before, m.name ≠ member.name) :
    arExtract (armag ++ (before.flatMap Member.bytes ++ member.bytes ++ rest)) member.name =
      (true, stringConcatb ⟨none⟩ member.data) := by
  have hwalk : ∀ fuel, before.length < fuel →
      arExtractMember member.name fuel (before.flatMap Member.bytes ++ member.bytes ++ rest) =
        (true, stringConcatb ⟨none⟩ member.data) := by
    induction before with
    | nil =>
      intro fuel hfuel
      obtain ⟨fuel, rfl⟩ := Nat.exists_eq_succ_of_ne_zero (Nat.ne_of_gt hfuel)
      have hname : arCompareName member.arName member.name = true := by
        rw [arCompareName_eq (hnul member (by simp))]
        exact beq_self_eq_true _
      rw [arExtractMember_succ, List.flatMap_nil, List.nil_append, nextEntry_member]
      exact if_pos hname
    | cons m before ih =>
      intro fuel hfuel
      obtain ⟨fuel, rfl⟩ := Nat.exists_eq_succ_of_ne_zero (Nat.ne_zero_of_lt hfuel)
      have hname : ¬ arCompareName m.arName member.name = true := by
        rw [arCompareName_eq (hnul m (by simp))]
        exact fun h => hbefore m (by simp) (beq_iff_eq.mp h)
      have hrest : ¬ (before.flatMap Member.bytes ++ member.bytes ++ rest).isEmpty = true := by
        rw [List.isEmpty_iff, ← List.length_eq_zero_iff, List.length_append, List.length_append]
        have := member.length_bytes
        omega
      rw [arExtractMember_succ, List.flatMap_cons, List.append_assoc, List.append_assoc,
        nextEntry_member, ← List.append_assoc]
      dsimp only
      rw [Member.entry, if_neg hname, if_neg hrest]
      exact ih (fun b hb => hnul b (by simp at hb ⊢; tauto)) (fun b hb => hbefore b (by simp [hb]))
        fuel (Nat.succ_lt_succ_iff.mp hfuel)
  have hcount : before.length ≤ (before.flatMap Member.bytes).length := by
    clear hwalk hnul hbefore
    induction before with
    | nil => simp
    | cons m before ih =>
      have := m.length_bytes
      simp only [List.flatMap_cons, List.length_cons, List.length_append]
      omega
  have har : arIsArFile (armag ++ (before.flatMap Member.bytes ++ member.bytes ++ rest)) = true := by
    simp [arIsArFile]
  rw [arExtract, if_pos har, List.drop_left]
  refine hwalk _ ?_
  have hmagic : armag.length = 8 := rfl
  simp only [List.length_append]
  omega

/-- The parts of a member that passes the checks. -/
theorem nextEntry_layout {pos rest : Bytes} {entry : Entry}
    (h : nextEntry pos = some (entry, rest)) :
    ∃ between padding, pos = entry.arName ++ (between ++ (entry.arSize ++ (arfmag ++
      (entry.data ++ (padding ++ rest))))) ∧ entry.arName.length = 16 ∧ between.length = 32 ∧
        entry.arSize.length = 10 ∧ padding.length = entry.data.length % 2 := by
  unfold nextEntry at h
  split at h
  · cases h
  · rename_i hlen
    split at h
    · cases h
    · rename_i hfmag
      obtain ⟨memberlen, -, h⟩ := Option.bind_eq_some_iff.mp h
      split at h
      · cases h
      · rename_i hfits
        obtain ⟨rfl, rfl⟩ := Prod.mk.inj (Option.some.inj h)
        have hrest : 60 ≤ pos.length := by
          simpa [arHdrSize] using hlen
        have hfmag : (pos.drop 58).take 2 = arfmag := Decidable.not_not.mp hfmag
        have hend : pos.drop arHdrSize = pos.drop (58 + 2) := rfl
        refine ⟨(pos.drop 16).take 32, ((pos.drop arHdrSize).drop memberlen).take (memberlen % 2),
          ?_, ?_, ?_, ?_, ?_⟩
        · rw [← drop_eq_field _ memberlen (memberlen % 2), List.take_append_drop, ← hfmag, hend,
            ← drop_eq_field pos 58 2]
          change pos = pos.take 16 ++ (_ ++ ((pos.drop 48).take 10 ++ pos.drop (48 + 10)))
          rw [← drop_eq_field pos 48 10]
          change pos = pos.take 16 ++ (_ ++ pos.drop (16 + 32))
          rw [← drop_eq_field pos 16 32, List.take_append_drop]
        all_goals
          simp only [arHdr, List.length_take, List.length_drop, arHdrSize] at hfits ⊢
          omega

/-- A member that passes the checks with a numeral as its length is well-formed. -/
theorem member_of_nextEntry {pos rest : Bytes} {entry : Entry}
    (h : nextEntry pos = some (entry, rest)) (hnumeral : entry.Numeral) :
    ∃ m : Member, m.entry = entry ∧ pos = m.bytes ++ rest := by
  obtain ⟨between, padding, hpos, hname, hbetween, hsize, hpadding⟩ := nextEntry_layout h
  refine ⟨⟨entry.arName, between, entry.arSize, entry.data, padding, hname, hbetween, hsize,
    hnumeral, hpadding⟩, rfl, ?_⟩
  simpa only [Member.bytes, List.append_assoc] using hpos

/-- The first member of a name, one member after the other. -/
theorem firstMember_step (name pos data : Bytes) :
    FirstMember name pos data ↔
      ∃ entry rest, nextEntry pos = some (entry, rest) ∧ entry.Numeral ∧
        if memberName entry.arName = name then entry.data = data
        else FirstMember name rest data := by
  constructor
  · rintro ⟨before, member, rest, rfl, hbefore, hname, rfl⟩
    cases before with
    | nil =>
      exact ⟨member.entry, rest, nextEntry_member member rest, member.arSize_numeral,
        by rw [if_pos (show memberName member.entry.arName = name from hname)]; rfl⟩
    | cons m before =>
      have hne : ¬ memberName m.entry.arName = name := hbefore m (by simp)
      refine ⟨m.entry, before.flatMap Member.bytes ++ member.bytes ++ rest, ?_,
        m.arSize_numeral, ?_⟩
      · rw [List.flatMap_cons, List.append_assoc, List.append_assoc, nextEntry_member,
          List.append_assoc]
      · rw [if_neg hne]
        exact ⟨before, member, rest, rfl, fun b hb => hbefore b (by simp [hb]), hname, rfl⟩
  · rintro ⟨entry, rest, hnext, hnumeral, hfound⟩
    obtain ⟨m, rfl, rfl⟩ := member_of_nextEntry hnext hnumeral
    split at hfound
    · rename_i hname
      exact ⟨[], m, rest, by simp, by simp, hname, hfound⟩
    · rename_i hname
      obtain ⟨before, member, after, rfl, hbefore, hmember, hdata⟩ := hfound
      refine ⟨m :: before, member, after, by simp, ?_, hmember, hdata⟩
      intro b hb
      rcases List.mem_cons.mp hb with rfl | hb
      · exact hname
      · exact hbefore b hb

theorem firstMember_nil (name data : Bytes) : ¬ FirstMember name [] data := by
  rw [firstMember_step]
  rintro ⟨entry, rest, hnext, -⟩
  cases hnext

theorem length_rest_lt {pos rest : Bytes} {entry : Entry}
    (h : nextEntry pos = some (entry, rest)) : rest.length < pos.length := by
  obtain ⟨between, padding, rfl, hname, -⟩ := nextEntry_layout h
  simp only [List.length_append]
  omega

/-- The first well-formed member of a name, found among the entries. -/
theorem firstMember_iff (name data : Bytes) {fuel : Nat} {pos : Bytes} (h : pos.length ≤ fuel) :
    FirstMember name pos data ↔
      ∃ named, ((entries fuel pos).1.takeWhile fun e => e.Numeral).find?
        (fun e => memberName e.arName == name) = some named ∧ named.data = data := by
  induction fuel generalizing pos with
  | zero =>
    obtain rfl := List.length_eq_zero_iff.mp (Nat.le_zero.mp h)
    simp [firstMember_nil, entries]
  | succ fuel ih =>
    rw [firstMember_step, entries]
    rcases hnext : nextEntry pos with _ | ⟨entry, rest⟩
    · simp
    · have hlength := length_rest_lt hnext
      have hrest := ih (show rest.length ≤ fuel by omega)
      by_cases hnumeral : entry.Numeral
      · by_cases hname : memberName entry.arName = name
        · cases hempty : rest.isEmpty <;> simp [hempty, hnumeral, hname]
        · cases hempty : rest.isEmpty with
          | true =>
            obtain rfl := List.isEmpty_iff.mp hempty
            simp [hnumeral, hname, firstMember_nil]
          | false => simp [hempty, hnumeral, hname, hrest]
      · cases hempty : rest.isEmpty <;> simp [hempty, hnumeral]

theorem archiveMember_iff (archive name data : Bytes) :
    ArchiveMember archive name data ↔
      ∃ named, ((archiveEntries archive).1.takeWhile fun e => e.Numeral).find?
        (fun e => memberName e.arName == name) = some named ∧ named.data = data := by
  unfold archiveEntries
  cases har : arIsArFile archive with
  | false =>
    have hnot : ¬ ∃ text, archive = armag ++ text ∧ FirstMember name text data := by
      rintro ⟨text, rfl, -⟩
      simp [arIsArFile] at har
    simpa [ArchiveMember] using hnot
  | true =>
    have hprefix : armag <+: archive := by
      simp only [arIsArFile, Bool.and_eq_true, decide_eq_true_eq] at har
      exact har.2
    obtain ⟨text, rfl⟩ := hprefix
    have hlength : text.length ≤ (armag ++ text).length := by simp
    rw [if_pos rfl, List.drop_left, ← firstMember_iff name data hlength, ArchiveMember]
    simp

/-! What a true result says -/

theorem arCompareName_of_memberName {arName name : Bytes} (h : memberName arName = name) :
    arCompareName arName name = true := by
  unfold arCompareName
  split
  · rfl
  · exact beq_iff_eq.mpr h

/-- The member that ar_extract reports is there, with the data it gives. -/
def Sound (archive name : Bytes) (found : Bool) (result : StructString) : Prop :=
  found = true → ArchiveMember archive name (content result)

theorem sound_iff (archive name : Bytes) :
    Sound archive name (arExtract archive name).1 (arExtract archive name).2 ↔
      Unambiguous archive name := by
  rw [arExtract_entries, Unambiguous]
  cases hfind : (archiveEntries archive).1.find? fun e => arCompareName e.arName name with
  | some entry =>
    have hdata : content (stringConcatb ⟨none⟩ entry.data) = entry.data := by
      rw [content_stringConcatb]
      rfl
    simp [Sound, archiveMember_iff, hdata]
  | none =>
    have habsent : ¬ ArchiveMember archive name [] := by
      rw [archiveMember_iff]
      rintro ⟨named, hnamed, -⟩
      have hmem := List.takeWhile_sublist _ |>.subset (List.mem_of_find?_eq_some hnamed)
      have hname : memberName named.arName = name := by
        simpa using List.find?_some hnamed
      exact List.find?_eq_none.mp hfind named hmem (arCompareName_of_memberName hname)
    cases hended : (archiveEntries archive).2 <;> simp [Sound, habsent, content]

/-- A download of an archive of the right version, with no key to verify it with. -/
structure UnsignedDownload (config : Config) (env : RequestEnv) (ifmodifiedsince : Int) : Prop where
  keyless : strIsEmpty config.masterdataSignkey = true
  fetched : (env.httpGet ifmodifiedsince).retval = httpEok
  archived : arIsArFile (env.httpGet ifmodifiedsince).archive = true
  version : (arMember (env.httpGet ifmodifiedsince).archive (ascii "chaosvpn-version")).map cstr =
    some (ascii "3")

theorem mainRequestConfig_unsigned {config : Config} {env : RequestEnv} {ifmodifiedsince : Int}
    (h : UnsignedDownload config env ifmodifiedsince) (httpResponse : StructString) :
    ∃ request, mainRequestConfig config env ifmodifiedsince httpResponse = some request ∧
      decide (request.retval = 1) =
        (arExtract (env.httpGet ifmodifiedsince).archive (ascii "cleartext")).1 ∧
      content request.httpResponse =
        content (arExtract (env.httpGet ifmodifiedsince).archive (ascii "cleartext")).2 := by
  refine ⟨_, by rw [mainRequestConfig, if_neg (not_not.mpr h.fetched)], ?_⟩
  cases hfound : (arExtract (env.httpGet ifmodifiedsince).archive (ascii "cleartext")).1 <;>
    simp [openArchive, h.archived, h.version, h.keyless, hfound]

/-- A true result names the first member of the name and gives its data if and only if
the members are unambiguous; the unsigned configuration text is such a result. -/
theorem arExtract_sound_iff (archive name : Bytes) :
    (Sound archive name (arExtract archive name).1 (arExtract archive name).2 ↔
      Unambiguous archive name) ∧
    ∀ config env ifmodifiedsince httpResponse, UnsignedDownload config env ifmodifiedsince →
      (env.httpGet ifmodifiedsince).archive = archive →
        ∃ request, mainRequestConfig config env ifmodifiedsince httpResponse = some request ∧
          (Sound archive (ascii "cleartext") (decide (request.retval = 1)) request.httpResponse ↔
            Unambiguous archive (ascii "cleartext")) := by
  refine ⟨sound_iff archive name, fun config env ifmodifiedsince httpResponse h harchive => ?_⟩
  obtain ⟨request, hrequest, hretval, hcontent⟩ := mainRequestConfig_unsigned h httpResponse
  rw [harchive] at hretval hcontent
  refine ⟨request, hrequest, ?_⟩
  rw [← sound_iff, Sound, Sound, hretval, hcontent]

/-- An archive that holds its version only. -/
def versionArchive : Bytes :=
  armag ++ ascii "chaosvpn-version" ++ List.replicate 32 space ++ ascii "1         " ++ arfmag ++
    ascii "3\n"

theorem cleartext_missing :
    ((arExtract versionArchive (ascii "cleartext")).1 = true ∧
      ¬ ∃ data, ArchiveMember versionArchive (ascii "cleartext") data) ∧
    ∀ config env ifmodifiedsince httpResponse, strIsEmpty config.masterdataSignkey = true →
      env.httpGet ifmodifiedsince = ⟨httpEok, 200, versionArchive⟩ →
        ∃ request, mainRequestConfig config env ifmodifiedsince httpResponse = some request ∧
          request.retval = 1 ∧ content request.httpResponse = [] := by
  have hextract : arExtract versionArchive (ascii "cleartext") = (true, ⟨none⟩) := by
    decide +kernel
  refine ⟨⟨by rw [hextract], ?_⟩, ?_⟩
  · rintro ⟨data, hmember⟩
    obtain ⟨named, hnamed, -⟩ := (archiveMember_iff _ _ _).mp hmember
    have hnone : (((archiveEntries versionArchive).1.takeWhile fun e => e.Numeral).find?
        (fun e => memberName e.arName == ascii "cleartext")).isNone = true := by
      decide +kernel
    simp [hnamed] at hnone
  · intro config env ifmodifiedsince httpResponse hkey hget
    have hversion : (arMember versionArchive (ascii "chaosvpn-version")).map cstr =
        some (ascii "3") := by
      decide +kernel
    have hdownload : UnsignedDownload config env ifmodifiedsince :=
      ⟨hkey, by rw [hget], by rw [hget]; decide +kernel, by rw [hget]; exact hversion⟩
    obtain ⟨request, hrequest, hretval, hcontent⟩ :=
      mainRequestConfig_unsigned hdownload httpResponse
    rw [hget, hextract] at hretval hcontent
    exact ⟨request, hrequest, of_decide_eq_true hretval, hcontent⟩

end ChaosVpn.ArMembers
