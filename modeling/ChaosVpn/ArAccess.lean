import ChaosVpn.ArMembers

/-! What ar_extract touches while it walks over an archive. The walk is done again
with the offset and the signed length that the code keeps, each turn with the bytes of
the archive and the indices of the local buffers it uses. -/

namespace ChaosVpn.ArAccess
open CStrings Numerals StringBuffer ArArchive ArMembers

/-- The conversions to `size_t` and to `ssize_t`. -/
def toSize (v : Int) : Int := v % 0x10000000000000000
def toSsize (v : Int) : Int := Int.bmod v 0x10000000000000000

inductive Access
  | archive (start count : Nat)
  | lengthBuffer (index : Int)
  | nameBuffer (index : Int)

def lengthBufferSize : Nat := 15
def nameBufferSize : Nat := 32

def Access.InBounds (archiveLength : Nat) : Access → Prop
  | .archive start count => start + count ≤ archiveLength
  | .lengthBuffer index => 0 ≤ index ∧ index < lengthBufferSize
  | .nameBuffer index => 0 ≤ index ∧ index < nameBufferSize

def indices (n : Nat) : List Int := (List.range n).map Int.ofNat

/-- The copied field and the blank behind it, the search for the first blank, and the
NUL byte put there. -/
def copyIndices (inh : Bytes) : List Int :=
  indices inh.length ++ [(inh.length : Int)] ++ indices ((fieldText inh).length + 1) ++
    [((fieldText inh).length : Int)]

def arParseheaderlengthIndices (inh : Bytes) : List Int :=
  if (0 : UInt8) ∈ inh then []
  else if inh.length > lengthBufferSize then []
  else
    let lintbuf := fieldText inh
    copyIndices inh ++ indices (lintbuf.length + 1) ++
      if (strtol lintbuf).1 < 0 then []
      else [(lintbuf.length : Int) - (strtol lintbuf).2.length]

/-- `strlen(lintbuf)-1` lies in front of the buffer when the text is empty. Both
strlen() and strcmp() stop at the NUL byte at the latest. -/
def arCompareNameIndices (inh : Bytes) : List Int :=
  if (0 : UInt8) ∈ inh then []
  else if inh.length > nameBufferSize then []
  else
    let lintbuf := fieldText inh
    copyIndices inh ++ indices (lintbuf.length + 1) ++ [(lintbuf.length : Int) - 1] ++
      (if lintbuf.getLast? = some slash then [(lintbuf.length : Int) - 1] else []) ++
      indices (lintbuf.length + 1)

def sizeAccesses (pos : Nat) (arSize : Bytes) : List Access :=
  [.archive (pos + 58) 2, .archive (pos + 48) 10] ++
    (arParseheaderlengthIndices arSize).map Access.lengthBuffer

def nameAccesses (pos : Nat) (arName : Bytes) : List Access :=
  .archive pos 16 :: (arCompareNameIndices arName).map Access.nameBuffer

inductive Turn
  | leave (found : Bool) (result : StructString)
  | again (pos : Nat) (len : Int)

/-- The body of the loop of ar_extract. -/
def turn (archive membername : Bytes) (pos : Nat) (len : Int) : List Access × Turn :=
  if toSize len < arHdrSize then ([], .leave false ⟨none⟩)
  else
    let arh := arHdr (archive.drop pos)
    let len := toSsize (toSize len - arHdrSize)
    if arh.arFmag ≠ arfmag then ([.archive (pos + 58) 2], .leave false ⟨none⟩)
    else
      let size := sizeAccesses pos arh.arSize
      match arParseheaderlength arh.arSize with
      | none => (size, .leave false ⟨none⟩)
      | some memberlen =>
        let padded := toSsize (memberlen + memberlen % 2)
        if padded > len then (size, .leave false ⟨none⟩)
        else
          let name := nameAccesses pos arh.arName
          let pos := pos + arHdrSize
          if arCompareName arh.arName membername then
            (size ++ name ++ [.archive pos memberlen],
              .leave true (stringConcatb ⟨none⟩ ((archive.drop pos).take memberlen)))
          else
            let len := len - padded
            if len = 0 then (size ++ name, .leave true ⟨none⟩)
            else if len < 0 then (size ++ name, .leave false ⟨none⟩)
            else (size ++ name, .again (pos + padded.toNat) len)

/-- As many turns as there is fuel, without a result if that is not enough. -/
def walk (archive membername : Bytes) :
    Nat → Nat → Int → List Access × Option (Bool × StructString)
  | 0, _, _ => ([], none)
  | fuel + 1, pos, len =>
    match turn archive membername pos len with
    | (accesses, .leave found result) => (accesses, some (found, result))
    | (accesses, .again pos len) =>
      (accesses ++ (walk archive membername fuel pos len).1,
        (walk archive membername fuel pos len).2)

def arExtractAccesses (archive membername : Bytes) (fuel : Nat) :
    List Access × Option (Bool × StructString) :=
  let len := toSsize archive.length
  if len < armag.length then ([], some (false, ⟨none⟩))
  else
    let magic := [Access.archive 0 armag.length]
    if ¬ armag <+: archive then (magic, some (false, ⟨none⟩))
    else
      let later := walk archive membername fuel armag.length (len - armag.length)
      (magic ++ later.1, later.2)

def AllInBounds (archive : Bytes) (accesses : List Access) : Prop :=
  ∀ access ∈ accesses, access.InBounds archive.length

/-- The loop ends, and all it has touched until then is there. -/
def Safe (archive membername : Bytes) : Prop :=
  ∃ fuel accesses result, arExtractAccesses archive membername fuel = (accesses, some result) ∧
    AllInBounds archive accesses

/-- The bytes that the signed length counts: all of them, in an archive of less than
2^63 bytes. -/
def counted (archive : Bytes) : Bytes := archive.take (toSsize archive.length).toNat

/-- The members that ar_compare_name is called for. -/
inductive Compared (membername : Bytes) : Bytes → Entry → Prop
  | here {pos rest : Bytes} {entry : Entry} (h : nextEntry pos = some (entry, rest)) :
      Compared membername pos entry
  | later {pos rest : Bytes} {entry found : Entry} (h : nextEntry pos = some (entry, rest))
      (hname : arCompareName entry.arName membername = false)
      (hfound : Compared membername rest found) : Compared membername pos found

/-- A name field that is refused, or has a byte in front of its first blank. -/
def Named (arName : Bytes) : Prop := (0 : UInt8) ∈ arName ∨ arName.head? ≠ some space

/-! The local buffers -/

theorem mem_indices {n : Nat} {i : Int} : i ∈ indices n ↔ 0 ≤ i ∧ i < n := by
  simp only [indices, List.mem_map, List.mem_range]
  constructor
  · rintro ⟨k, hk, rfl⟩
    exact ⟨Int.natCast_nonneg k, Int.ofNat_lt.mpr hk⟩
  · intro h
    exact ⟨i.toNat, by omega, Int.toNat_of_nonneg h.1⟩

theorem length_fieldText_le (inh : Bytes) : (fieldText inh).length ≤ inh.length :=
  (List.takeWhile_prefix _).length_le

theorem mem_copyIndices {inh : Bytes} {i : Int} (h : i ∈ copyIndices inh) :
    0 ≤ i ∧ i ≤ inh.length := by
  have hlength := length_fieldText_le inh
  simp only [copyIndices, List.mem_append, List.mem_singleton, mem_indices] at h
  omega

/-- What strtol() takes digits from. -/
theorem length_unsigned_le (s : Bytes) : (takeSign (strSkipSpaces s)).2.length ≤ s.length := by
  have hspaces : (strSkipSpaces s).length ≤ s.length := (List.dropWhile_sublist _).length_le
  have hsign : ∀ t : Bytes, (takeSign t).2.length ≤ t.length := by
    intro t
    unfold takeSign
    split <;> simp
  exact Nat.le_trans (hsign _) hspaces

theorem length_strtol_le (s : Bytes) : (strtol s).2.length ≤ s.length := by
  have hdigits : ∀ t : Bytes, (t.dropWhile isDigit).length ≤ t.length :=
    fun t => (List.dropWhile_sublist _).length_le
  unfold strtol
  dsimp only
  split
  · exact Nat.le_refl _
  · exact Nat.le_trans (hdigits _) (length_unsigned_le s)

theorem lengthBuffer_inBounds {inh : Bytes} (hlength : inh.length = 10) {i : Int}
    (h : i ∈ arParseheaderlengthIndices inh) : 0 ≤ i ∧ i < lengthBufferSize := by
  have htext := length_fieldText_le inh
  have hend := length_strtol_le (fieldText inh)
  unfold arParseheaderlengthIndices lengthBufferSize at *
  split at h
  · cases h
  · split at h
    · cases h
    · simp only [List.mem_append] at h
      rcases h with (h | h) | h
      · have := mem_copyIndices h
        omega
      · have := mem_indices.mp h
        omega
      · split at h
        · cases h
        · rw [List.mem_singleton] at h
          omega

theorem fieldText_eq_nil {inh : Bytes} (hne : inh ≠ []) :
    fieldText inh = [] ↔ inh.head? = some space := by
  obtain ⟨c, cs, rfl⟩ := List.exists_cons_of_ne_nil hne
  by_cases hc : c = space <;> simp [fieldText, hc]

theorem nameBuffer_inBounds {inh : Bytes} (hlength : inh.length = 16) :
    (∀ i ∈ arCompareNameIndices inh, 0 ≤ i ∧ i < nameBufferSize) ↔ Named inh := by
  have htext := length_fieldText_le inh
  have hne : inh ≠ [] := List.ne_nil_of_length_pos (by omega)
  unfold arCompareNameIndices Named nameBufferSize
  rw [ne_eq, ← fieldText_eq_nil hne, ← List.length_eq_zero_iff]
  by_cases hnul : (0 : UInt8) ∈ inh
  · simp [hnul]
  · rw [if_neg hnul, if_neg (by omega)]
    constructor
    · intro h
      have hlast := h ((fieldText inh).length - 1) (by simp)
      exact Or.inr fun hzero => by omega
    · intro h i hi
      have hpositive := h.resolve_left hnul
      simp only [List.mem_append, List.mem_singleton] at hi
      rcases hi with (((hi | hi) | hi) | hi) | hi
      · have := mem_copyIndices hi
        omega
      · have := mem_indices.mp hi
        omega
      · omega
      · split at hi
        · rw [List.mem_singleton] at hi
          omega
        · cases hi
      · have := mem_indices.mp hi
        omega

/-! The lengths -/

theorem toSize_eq {v : Int} (h : 0 ≤ v) (hlong : v ≤ longMax) : toSize v = v := by
  unfold toSize
  unfold longMax at hlong
  omega

theorem toSsize_eq {v : Int} (h : 0 ≤ v) (hlong : v ≤ longMax) : toSsize v = v := by
  unfold toSsize Int.bmod
  unfold longMax at hlong
  dsimp only
  split <;> omega

theorem toSsize_le (n : Nat) : toSsize n ≤ n ∧ toSsize n ≤ longMax := by
  unfold toSsize Int.bmod longMax
  dsimp only
  split <;> omega

theorem strtol_lt (s : Bytes) : (strtol s).1 < Nat.pow 10 s.length := by
  have hpositive : 0 < Nat.pow 10 s.length := Nat.pow_pos (by decide)
  have hdigits : ∀ t : Bytes, (t.takeWhile isDigit).length ≤ t.length :=
    fun t => (List.takeWhile_prefix _).length_le
  have hvalue : ∀ t : Bytes, digitsValue (t.takeWhile isDigit) <
      Nat.pow 10 (t.takeWhile isDigit).length :=
    fun t => digitsValue_lt fun d hd => List.all_eq_true.mp List.all_takeWhile d hd
  have hbound : digitsValue ((takeSign (strSkipSpaces s)).2.takeWhile isDigit) <
      Nat.pow 10 s.length :=
    Nat.lt_of_lt_of_le (hvalue _) (Nat.pow_le_pow_right (by decide)
      (Nat.le_trans (hdigits _) (length_unsigned_le s)))
  unfold strtol
  dsimp only
  split
  · exact Int.ofNat_lt.mpr hpositive
  · dsimp only
    split
    · unfold longMin
      omega
    · omega

/-- A length of ten characters and its padding fit a `ssize_t`. -/
theorem arParseheaderlength_lt {inh : Bytes} (hlength : inh.length = 10) {memberlen : Nat}
    (h : arParseheaderlength inh = some memberlen) : memberlen < 10000000000 := by
  have hvalue := strtol_lt (fieldText inh)
  have hpow : Nat.pow 10 (fieldText inh).length ≤ Nat.pow 10 10 :=
    Nat.pow_le_pow_right (by decide) (hlength ▸ length_fieldText_le inh)
  unfold arParseheaderlength at h
  have hten : Nat.pow 10 10 = 10000000000 := rfl
  split at h
  · cases h
  · dsimp only at h
    split at h
    · cases h
    · split at h
      · cases h
        omega
      · cases h

/-! One turn -/

theorem allInBounds_append {archive : Bytes} {a b : List Access} :
    AllInBounds archive (a ++ b) ↔ AllInBounds archive a ∧ AllInBounds archive b :=
  List.forall_mem_append

theorem allInBounds_archive {archive : Bytes} {start count : Nat}
    (h : start + count ≤ archive.length) : AllInBounds archive [Access.archive start count] := by
  intro access haccess
  rw [List.mem_singleton.mp haccess]
  exact h

theorem allInBounds_sizeAccesses {archive arSize : Bytes} {pos : Nat}
    (hlength : arSize.length = 10) (h : pos + arHdrSize ≤ archive.length) :
    AllInBounds archive (sizeAccesses pos arSize) := by
  unfold arHdrSize at h
  refine allInBounds_append.mpr ⟨?_, fun access haccess => ?_⟩
  · refine List.forall_mem_cons.mpr ⟨?_, allInBounds_archive ?_⟩
    · change pos + 58 + 2 ≤ archive.length
      omega
    · omega
  · obtain ⟨i, hi, rfl⟩ := List.mem_map.mp haccess
    exact lengthBuffer_inBounds hlength hi

theorem allInBounds_nameAccesses {archive arName : Bytes} {pos : Nat}
    (hlength : arName.length = 16) (h : pos + arHdrSize ≤ archive.length) :
    AllInBounds archive (nameAccesses pos arName) ↔ Named arName := by
  rw [← nameBuffer_inBounds hlength]
  constructor
  · intro hall i hi
    exact hall (.nameBuffer i) (List.mem_cons_of_mem _ (List.mem_map_of_mem hi))
  · intro hall
    refine List.forall_mem_cons.mpr ⟨?_, fun access haccess => ?_⟩
    · change pos + 16 ≤ archive.length
      unfold arHdrSize at h
      omega
    · obtain ⟨i, hi, rfl⟩ := List.mem_map.mp haccess
      exact hall i hi

theorem length_arName {pos : Bytes} (h : arHdrSize ≤ pos.length) :
    (arHdr pos).arName.length = 16 := by
  unfold arHdrSize at h
  simp only [arHdr, List.length_take]
  omega

theorem length_arSize {pos : Bytes} (h : arHdrSize ≤ pos.length) :
    (arHdr pos).arSize.length = 10 := by
  unfold arHdrSize at h
  simp only [arHdr, List.length_take, List.length_drop]
  omega

theorem arHdr_append {pos : Bytes} (h : arHdrSize ≤ pos.length) (tail : Bytes) :
    arHdr (pos ++ tail) = arHdr pos := by
  unfold arHdrSize at h
  simp only [arHdr, ArHdr.mk.injEq]
  refine ⟨List.take_append_of_le_length (by omega), ?_, ?_⟩ <;>
  · rw [List.drop_append_of_le_length (by omega),
      List.take_append_of_le_length (by rw [List.length_drop]; omega)]

/-- The part of a turn behind the checks of a header. -/
theorem turn_member {archive pos tail : Bytes} {start memberlen : Nat} (membername : Bytes)
    (hpos : archive.drop start = pos ++ tail) (hlong : (pos.length : Int) ≤ longMax)
    (hheader : arHdrSize ≤ pos.length) (hfmag : (arHdr pos).arFmag = arfmag)
    (hparse : arParseheaderlength (arHdr pos).arSize = some memberlen) :
    turn archive membername start pos.length =
      if memberlen + memberlen % 2 > (pos.drop arHdrSize).length then
        (sizeAccesses start (arHdr pos).arSize, .leave false ⟨none⟩)
      else (sizeAccesses start (arHdr pos).arSize ++ nameAccesses start (arHdr pos).arName ++
          if arCompareName (arHdr pos).arName membername then
            [.archive (start + arHdrSize) memberlen]
          else [],
        if arCompareName (arHdr pos).arName membername then
          .leave true (stringConcatb ⟨none⟩ ((pos.drop arHdrSize).take memberlen))
        else if ((pos.drop arHdrSize).drop (memberlen + memberlen % 2)).isEmpty then
          .leave true ⟨none⟩
        else .again (start + (arHdrSize + (memberlen + memberlen % 2)))
          ((pos.drop arHdrSize).drop (memberlen + memberlen % 2)).length) := by
  have hsize : toSize pos.length = pos.length := toSize_eq (Int.natCast_nonneg _) hlong
  have hlen : ¬ (pos.length : Int) < arHdrSize := by omega
  have hrest : toSsize (pos.length - arHdrSize) = pos.length - arHdrSize :=
    toSsize_eq (by omega) (by omega)
  have hmemberlen := arParseheaderlength_lt (length_arSize hheader) hparse
  have hpadded : toSsize (memberlen + memberlen % 2) = (memberlen + memberlen % 2 : Nat) := by
    rw [toSsize_eq (by omega) (by unfold longMax; omega)]
    rfl
  have hdrop : (pos.drop arHdrSize).length = pos.length - arHdrSize := List.length_drop
  have hfits : ((memberlen + memberlen % 2 : Nat) : Int) > pos.length - arHdrSize ↔
      memberlen + memberlen % 2 > (pos.drop arHdrSize).length := by
    omega
  rw [turn, hsize, if_neg hlen, hpos, arHdr_append hheader, hrest]
  dsimp only
  rw [if_neg (not_not.mpr hfmag), hparse]
  dsimp only
  rw [hpadded]
  simp only [hfits]
  by_cases hlonger : memberlen + memberlen % 2 > (pos.drop arHdrSize).length
  · rw [if_pos hlonger, if_pos hlonger]
  · rw [if_neg hlonger, if_neg hlonger]
    cases arCompareName (arHdr pos).arName membername with
    | true =>
      have hdata : (archive.drop (start + arHdrSize)).take memberlen =
          (pos.drop arHdrSize).take memberlen := by
        rw [← List.drop_drop, hpos, List.drop_append_of_le_length hheader,
          List.take_append_of_le_length (by omega)]
      rw [if_pos rfl, if_pos rfl, if_pos rfl, hdata]
    | false =>
      have hnext : ((pos.length : Int) - arHdrSize - (memberlen + memberlen % 2 : Nat)) =
          ((pos.drop arHdrSize).drop (memberlen + memberlen % 2)).length := by
        rw [List.length_drop, hdrop]
        omega
      rw [if_neg Bool.false_ne_true, if_neg Bool.false_ne_true, if_neg Bool.false_ne_true,
        List.append_nil, hnext, Int.toNat_natCast, Nat.add_assoc]
      cases hrests : (pos.drop arHdrSize).drop (memberlen + memberlen % 2) with
      | nil => rfl
      | cons c cs =>
        have hne : ¬ ((c :: cs).length : Int) = 0 := Int.natCast_ne_zero.mpr (by simp)
        have hnotneg : ¬ ((c :: cs).length : Int) < 0 := Int.not_lt.mpr (Int.natCast_nonneg _)
        rw [if_neg hne, if_neg hnotneg]
        rfl

/-- A turn takes the next member and touches nothing outside of the archive, and nothing
outside of the name buffer if the name field is not empty. -/
theorem turn_cases {archive pos tail : Bytes} {start : Nat} (membername : Bytes)
    (hpos : archive.drop start = pos ++ tail) (hlong : (pos.length : Int) ≤ longMax) :
    (nextEntry pos = none ∧ ∃ accesses, AllInBounds archive accesses ∧
      turn archive membername start pos.length = (accesses, .leave false ⟨none⟩)) ∨
    ∃ entry next accesses, nextEntry pos = some (entry, next) ∧
      (AllInBounds archive accesses ↔ Named entry.arName) ∧
      ∃ later, archive.drop later = next ++ tail ∧
        turn archive membername start pos.length =
          (accesses, if arCompareName entry.arName membername then
              .leave true (stringConcatb ⟨none⟩ entry.data)
            else if next.isEmpty then .leave true ⟨none⟩
            else .again later next.length) := by
  have hsize : toSize pos.length = pos.length := toSize_eq (Int.natCast_nonneg _) hlong
  by_cases hlen : pos.length < arHdrSize
  · refine Or.inl ⟨by rw [nextEntry, if_pos hlen], [], by simp [AllInBounds], ?_⟩
    rw [turn, hsize, if_pos (Int.ofNat_lt.mpr hlen)]
  · have hheader : arHdrSize ≤ pos.length := Nat.le_of_not_lt hlen
    have hlenInt : ¬ (pos.length : Int) < arHdrSize := by omega
    have hrest : toSsize (pos.length - arHdrSize) = pos.length - arHdrSize :=
      toSsize_eq (by omega) (by omega)
    have hbound : start + pos.length ≤ archive.length := by
      have hlength := congrArg List.length hpos
      rw [List.length_drop, List.length_append] at hlength
      unfold arHdrSize at hheader
      omega
    have hsizes : AllInBounds archive (sizeAccesses start (arHdr pos).arSize) :=
      allInBounds_sizeAccesses (length_arSize hheader) (by omega)
    have hnames : AllInBounds archive (nameAccesses start (arHdr pos).arName) ↔
        Named (arHdr pos).arName :=
      allInBounds_nameAccesses (length_arName hheader) (by omega)
    rw [nextEntry, if_neg hlen]
    by_cases hmagic : (arHdr pos).arFmag ≠ arfmag
    · refine Or.inl ⟨if_pos hmagic, [.archive (start + 58) 2], ?_, ?_⟩
      · unfold arHdrSize at hheader
        exact allInBounds_archive (by omega)
      · rw [turn, hsize, if_neg hlenInt, hpos, arHdr_append hheader]
        exact if_pos hmagic
    · rw [if_neg hmagic]
      cases hparse : arParseheaderlength (arHdr pos).arSize with
      | none =>
        refine Or.inl ⟨rfl, _, hsizes, ?_⟩
        rw [turn, hsize, if_neg hlenInt, hpos, arHdr_append hheader]
        dsimp only
        rw [if_neg hmagic, hparse]
      | some memberlen =>
        have hturn := turn_member membername hpos hlong hheader (not_not.mp hmagic) hparse
        rw [Option.bind_some]
        by_cases hfits : memberlen + memberlen % 2 > (pos.drop arHdrSize).length
        · rw [if_pos hfits] at hturn
          exact Or.inl ⟨if_pos hfits, _, hsizes, hturn⟩
        · rw [if_neg hfits] at hturn
          rw [if_neg hfits]
          refine Or.inr ⟨_, _, _, rfl, ?_, _, ?_, hturn⟩
          · have hdata : AllInBounds archive
                (if arCompareName (arHdr pos).arName membername then
                  [Access.archive (start + arHdrSize) memberlen] else []) := by
              rw [List.length_drop] at hfits
              split
              · exact allInBounds_archive (by omega)
              · simp [AllInBounds]
            rw [allInBounds_append, allInBounds_append, hnames]
            exact ⟨fun h => h.1.2, fun h => ⟨⟨hsizes, h⟩, hdata⟩⟩
          · rw [← List.drop_drop, ← List.drop_drop, hpos, List.drop_append_of_le_length hheader,
              List.drop_append_of_le_length (by omega)]

/-! The whole walk -/

theorem compared_iff {membername pos : Bytes} {found : Entry} :
    Compared membername pos found ↔
      ∃ entry next, nextEntry pos = some (entry, next) ∧
        (found = entry ∨
          arCompareName entry.arName membername = false ∧ Compared membername next found) := by
  constructor
  · intro h
    cases h with
    | here h => exact ⟨_, _, h, Or.inl rfl⟩
    | later h hname hfound => exact ⟨_, _, h, Or.inr ⟨hname, hfound⟩⟩
  · rintro ⟨entry, next, h, rfl | ⟨hname, hfound⟩⟩
    · exact .here h
    · exact .later h hname hfound

theorem not_compared_nil {membername : Bytes} {found : Entry} :
    ¬ Compared membername [] found := by
  rw [compared_iff]
  rintro ⟨entry, next, h, -⟩
  cases h

/-- The walk gives what the members give, and stays in bounds as long as no name field
that it compares is empty. -/
theorem walk_spec {archive tail : Bytes} (membername : Bytes) {fuel : Nat} :
    ∀ {pos : Bytes} {start : Nat}, archive.drop start = pos ++ tail →
      (pos.length : Int) ≤ longMax → pos.length < fuel →
        (walk archive membername fuel start pos.length).2 =
            some (arExtractMember membername fuel pos) ∧
          (AllInBounds archive (walk archive membername fuel start pos.length).1 ↔
            ∀ entry, Compared membername pos entry → Named entry.arName) := by
  induction fuel with
  | zero => exact fun _ _ hfuel => absurd hfuel (Nat.not_lt_zero _)
  | succ fuel ih =>
    intro pos start hpos hlong hfuel
    rw [arExtractMember_succ, walk]
    rcases turn_cases membername hpos hlong with
      ⟨hnone, accesses, hin, hturn⟩ | ⟨entry, next, accesses, hsome, hin, later, hlater, hturn⟩
    · rw [hturn, hnone]
      refine ⟨rfl, fun _ found hfound => ?_, fun _ => hin⟩
      obtain ⟨entry, next, h, -⟩ := compared_iff.mp hfound
      rw [hnone] at h
      cases h
    · have hcompared : ∀ found, Compared membername pos found ↔ found = entry ∨
          arCompareName entry.arName membername = false ∧ Compared membername next found := by
        intro found
        rw [compared_iff, hsome]
        constructor
        · rintro ⟨e, n, h, hfound⟩
          obtain ⟨rfl, rfl⟩ := Prod.mk.inj (Option.some.inj h)
          exact hfound
        · exact fun hfound => ⟨entry, next, rfl, hfound⟩
      have hshorter := length_rest_lt hsome
      rw [hturn, hsome]
      simp only [hcompared]
      cases hname : arCompareName entry.arName membername with
      | true => exact ⟨rfl, by simp [hin]⟩
      | false =>
        cases next with
        | nil => exact ⟨rfl, by simp [hin, not_compared_nil]⟩
        | cons c cs =>
          obtain ⟨hresult, hbounds⟩ := ih hlater (by omega) (by omega)
          refine ⟨hresult, ?_⟩
          change AllInBounds archive (accesses ++ _) ↔ _
          rw [allInBounds_append, hin, hbounds]
          constructor
          · rintro ⟨hnamed, hlaters⟩ found (rfl | ⟨-, hfound⟩)
            · exact hnamed
            · exact hlaters found hfound
          · exact fun h => ⟨h entry (Or.inl rfl), fun found hfound => h found (Or.inr ⟨rfl, hfound⟩)⟩

/-- More fuel changes nothing once the loop has ended. -/
theorem walk_ended {archive membername : Bytes} {fuel : Nat} :
    ∀ {start : Nat} {len : Int}, (walk archive membername fuel start len).2.isSome = true →
      ∀ more, fuel ≤ more →
        walk archive membername more start len = walk archive membername fuel start len := by
  induction fuel with
  | zero => exact fun h => absurd h Bool.false_ne_true
  | succ fuel ih =>
    intro start len h more hmore
    obtain ⟨more, rfl⟩ := Nat.exists_eq_succ_of_ne_zero (Nat.ne_zero_of_lt hmore)
    rw [walk] at h
    rw [walk, walk]
    cases hturn : turn archive membername start len with
    | mk accesses next =>
      rw [hturn] at h
      cases next with
      | leave found result => rfl
      | again start len =>
        dsimp only at h ⊢
        rw [ih h more (Nat.le_of_succ_le_succ hmore)]

theorem length_counted (archive : Bytes) :
    (counted archive).length = (toSsize archive.length).toNat := by
  have hle := toSsize_le archive.length
  rw [counted, List.length_take]
  omega

theorem counted_append (archive : Bytes) :
    archive = counted archive ++ archive.drop (toSsize archive.length).toNat :=
  (List.take_append_drop _ _).symm

theorem counted_eq {archive : Bytes} (h : (archive.length : Int) ≤ longMax) :
    counted archive = archive := by
  rw [counted, toSsize_eq (Int.natCast_nonneg _) h, Int.toNat_natCast, List.take_length]

/-- With fuel for every byte the walk ends as ar_extract does. -/
theorem arExtractAccesses_spec (archive membername : Bytes) {fuel : Nat}
    (hfuel : fuel = (counted archive).length) :
    (arExtractAccesses archive membername fuel).2 =
        some (arExtract (counted archive) membername) ∧
      (AllInBounds archive (arExtractAccesses archive membername fuel).1 ↔
        ∀ text entry, counted archive = armag ++ text → Compared membername text entry →
          Named entry.arName) := by
  have hle := toSsize_le archive.length
  have hlength := length_counted archive
  have hmagic : armag.length = 8 := rfl
  rw [arExtractAccesses]
  by_cases hshort : toSsize archive.length < armag.length
  · have hnone : arIsArFile (counted archive) = false := by
      rw [arIsArFile, decide_eq_false (by omega), Bool.false_and]
    rw [if_pos hshort, arExtract, if_neg (by rw [hnone]; exact Bool.false_ne_true)]
    refine ⟨rfl, fun _ text entry htext => ?_, by simp [AllInBounds]⟩
    have := congrArg List.length htext
    rw [List.length_append] at this
    omega
  · have hstarts : armag <+: archive ↔ armag <+: counted archive := by
      constructor
      · exact fun h => List.prefix_take_iff.mpr ⟨h, by omega⟩
      · exact fun h => h.trans (List.take_prefix _ _)
    have hstart : AllInBounds archive [Access.archive 0 armag.length] :=
      allInBounds_archive (by omega)
    rw [if_neg hshort]
    by_cases har : armag <+: archive
    · obtain ⟨text, htext⟩ := hstarts.mp har
      have hfile : arIsArFile (counted archive) = true := by
        rw [arIsArFile, decide_eq_true (by omega), Bool.true_and]
        exact decide_eq_true (hstarts.mp har)
      have htextlength : armag.length + text.length = (counted archive).length := by
        rw [← htext, List.length_append]
      have hpos : archive.drop armag.length =
          text ++ archive.drop (toSsize archive.length).toNat := by
        conv_lhs => rw [counted_append archive, ← htext, List.append_assoc]
        exact List.drop_left
      obtain ⟨hresult, hbounds⟩ := walk_spec membername hpos
        (by omega) (show text.length < fuel by omega)
      have hlen : toSsize archive.length - armag.length = text.length := by omega
      rw [if_neg (not_not.mpr har), hlen, arExtract, if_pos hfile, ← hfuel, ← htext,
        List.drop_left]
      rw [htext]
      dsimp only
      refine ⟨hresult, ?_⟩
      rw [allInBounds_append, hbounds]
      constructor
      · rintro ⟨-, h⟩ text' entry htext' hcompared
        rw [← htext] at htext'
        exact h entry (List.append_cancel_left htext' ▸ hcompared)
      · exact fun h => ⟨hstart, fun entry hcompared => h text entry htext.symm hcompared⟩
    · have hnone : arIsArFile (counted archive) = false := by
        rw [arIsArFile, decide_eq_false fun h => har (hstarts.mpr h), Bool.and_false]
      rw [if_pos har, arExtract, if_neg (by rw [hnone]; exact Bool.false_ne_true)]
      refine ⟨rfl, fun _ text entry htext => ?_, fun _ => hstart⟩
      exact absurd (hstarts.mpr ⟨text, htext.symm⟩) har

theorem arExtractAccesses_ended {archive membername : Bytes} {fuel : Nat}
    (h : (arExtractAccesses archive membername fuel).2.isSome = true) {more : Nat}
    (hmore : fuel ≤ more) :
    arExtractAccesses archive membername more = arExtractAccesses archive membername fuel := by
  rw [arExtractAccesses] at h
  rw [arExtractAccesses, arExtractAccesses]
  split
  · rfl
  · rename_i hlen
    rw [if_neg hlen] at h
    split
    · rfl
    · rename_i har
      rw [if_neg har] at h
      rw [walk_ended h more hmore]

theorem safe_iff_of_fuel (archive membername : Bytes) {fuel : Nat}
    (hfuel : fuel = (counted archive).length) :
    Safe archive membername ↔
      AllInBounds archive (arExtractAccesses archive membername fuel).1 := by
  have hended := (arExtractAccesses_spec archive membername hfuel).1
  constructor
  · rintro ⟨other, accesses, result, hother, hin⟩
    have hsome : (arExtractAccesses archive membername other).2.isSome = true := by
      rw [hother]
      rfl
    have hsame : arExtractAccesses archive membername fuel =
        arExtractAccesses archive membername other := by
      rcases Nat.le_total fuel other with hle | hle
      · exact (arExtractAccesses_ended (by rw [hended]; rfl) hle).symm
      · exact arExtractAccesses_ended hsome hle
    rw [hsame, hother]
    exact hin
  · intro hin
    cases hwalk : arExtractAccesses archive membername fuel with
    | mk accesses result =>
      rw [hwalk] at hended hin
      dsimp only at hended
      exact ⟨fuel, accesses, _, by rw [hwalk, hended], hin⟩

theorem safe_iff (archive membername : Bytes) :
    Safe archive membername ↔
      ∀ text entry, counted archive = armag ++ text → Compared membername text entry →
        Named entry.arName := by
  rw [safe_iff_of_fuel archive membername rfl]
  exact (arExtractAccesses_spec archive membername rfl).2

/-- The loop always ends, and stays in bounds if and only if no name field that is
compared begins with a blank. -/
theorem inBounds_iff (archive membername : Bytes) :
    (∃ fuel, (arExtractAccesses archive membername fuel).2 =
      some (arExtract (counted archive) membername)) ∧
    (Safe archive membername ↔
      ∀ text entry, counted archive = armag ++ text → Compared membername text entry →
        Named entry.arName) :=
  ⟨⟨_, (arExtractAccesses_spec archive membername rfl).1⟩, safe_iff archive membername⟩

/-- One empty member without a name. -/
def namelessArchive : Bytes :=
  armag ++ (List.replicate 48 space ++ ascii "0         " ++ arfmag)

theorem nameless_outOfBounds : ¬ Safe namelessArchive (ascii "cleartext") := by
  have hcounted : counted namelessArchive = namelessArchive :=
    counted_eq (by decide +kernel)
  have hnext : nextEntry (List.replicate 48 space ++ ascii "0         " ++ arfmag) =
      some (⟨List.replicate 16 space, ascii "0         ", []⟩, []) := by
    rfl
  rw [safe_iff]
  intro h
  have hnamed := h _ _ (hcounted.trans rfl) (.here hnext)
  exact absurd hnamed (by simp [Named]; decide)

end ChaosVpn.ArAccess
