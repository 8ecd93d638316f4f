import Mathlib.Data.List.Basic

/-! Texts as the lines between separators, of which a predicate keeps some. A text
that ends with a separator (or is empty) is cut off from what is appended to it. -/

namespace TextLines

variable {α : Type} {separator : α}

def Complete (separator : α) (text : List α) : Prop :=
  text = [] ∨ text.getLast? = some separator

theorem complete_line (line : List α) : Complete separator (line ++ [separator]) := by
  simp [Complete]

theorem complete_append {before after : List α} (hbefore : Complete separator before)
    (hafter : Complete separator after) : Complete separator (before ++ after) := by
  rcases hafter with rfl | hlast
  · simpa using hbefore
  · obtain ⟨text, rfl⟩ := List.getLast?_eq_some_iff.mp hlast
    rw [← List.append_assoc]
    exact complete_line _

theorem complete_flatMap {β : Type} {write : β → List α} {items : List β}
    (h : ∀ item ∈ items, Complete separator (write item)) :
    Complete separator (items.flatMap write) := by
  induction items with
  | nil => exact .inl rfl
  | cons item items ih =>
    rw [List.flatMap_cons]
    exact complete_append (h item (by simp)) (ih fun i hi => h i (by simp [hi]))

theorem mem_of_mem_intercalate {joint : List α} {pieces : List (List α)} {c : α}
    (h : c ∈ joint.intercalate pieces) : c ∈ joint ∨ ∃ piece ∈ pieces, c ∈ piece := by
  induction pieces with
  | nil => simp at h
  | cons piece pieces ih =>
    cases pieces with
    | nil => exact .inr ⟨piece, by simp, by simpa using h⟩
    | cons next pieces =>
      rw [List.intercalate_cons_cons, List.mem_append, List.mem_append] at h
      rcases h with (h | h) | h
      · exact .inr ⟨piece, by simp, h⟩
      · exact .inl h
      · rcases ih h with h | ⟨p, hp, hc⟩
        · exact .inl h
        · exact .inr ⟨p, by simp [hp], hc⟩

/-! Where a list is cut -/

theorem split_while (p : α → Bool) (text : List α) :
    ∃ front rest, text = front ++ rest ∧ (∀ c ∈ front, p c = true) ∧
      ∀ c, rest.head? = some c → p c = false := by
  refine ⟨text.takeWhile p, text.dropWhile p, List.takeWhile_append_dropWhile.symm, ?_, ?_⟩
  · exact List.all_eq_true.mp List.all_takeWhile
  · intro c hc
    have hhead := List.head?_dropWhile_not p text
    rw [hc] at hhead
    simpa using hhead

/-- A front part without the mark ends before the first mark. -/
theorem length_le_of_not_mem {front rest before after : List α} {mark : α}
    (h : front ++ rest = before ++ mark :: after) (hfront : mark ∉ front) :
    front.length ≤ before.length := by
  rcases List.append_eq_append_iff.mp h with ⟨gap, rfl, -⟩ | ⟨gap, rfl, hgap⟩
  · simp
  · cases gap with
    | nil => simp
    | cons c gap =>
      obtain ⟨rfl, -⟩ := List.cons.inj hgap
      simp at hfront

theorem split_first {p : α → Bool} {lines : List α} (h : ∃ line ∈ lines, p line = true) :
    ∃ before line after, lines = before ++ line :: after ∧ p line = true ∧
      ∀ l ∈ before, p l = false := by
  obtain ⟨line, hfind⟩ := Option.isSome_iff_exists.mp (List.find?_isSome.mpr h)
  obtain ⟨hline, before, after, heq, hbefore⟩ := List.find?_eq_some_iff_append.mp hfind
  exact ⟨before, line, after, heq, hline, fun l hl => by simpa using hbefore l hl⟩

theorem split_last {p : α → Bool} {lines : List α} (h : ∃ line ∈ lines, p line = true) :
    ∃ before line after, lines = before ++ line :: after ∧ p line = true ∧
      ∀ l ∈ after, p l = false := by
  have hreverse : ∃ line ∈ lines.reverse, p line = true := by simpa using h
  obtain ⟨after, line, before, heq, hline, hafter⟩ := split_first hreverse
  refine ⟨before.reverse, line, after.reverse, ?_, hline, by simpa using hafter⟩
  simpa using congrArg List.reverse heq

/-- The first line of a kind splits a list in one way. -/
theorem split_first_unique {p : α → Bool} {before before' after after' : List α} {line line' : α}
    (h : before ++ line :: after = before' ++ line' :: after') (hline : p line = true)
    (hline' : p line' = true) (hbefore : ∀ l ∈ before, p l = false)
    (hbefore' : ∀ l ∈ before', p l = false) :
    before = before' ∧ line = line' ∧ after = after' := by
  have hfront {front : List α} {l : α} (rest : List α) (hl : p l = true)
      (hall : ∀ k ∈ front, p k = false) :
      (front ++ l :: rest).takeWhile (fun k => !p k) = front := by
    rw [List.takeWhile_append_of_pos (by simpa using hall),
      List.takeWhile_cons_of_neg (by simp [hl]), List.append_nil]
  have heq : before = before' := by
    rw [← hfront after hline hbefore, h, hfront after' hline' hbefore']
  subst heq
  exact ⟨rfl, List.cons.inj (List.append_cancel_left h)⟩

variable [BEq α] [LawfulBEq α] {keep : List α → Bool}

def keptLines (separator : α) (keep : List α → Bool) (text : List α) : List (List α) :=
  (text.splitOn separator).filter keep

/-- No line holds the separator, and every byte of a line is one of the text. -/
theorem mem_line {text line : List α} (h : line ∈ text.splitOn separator) :
    separator ∉ line ∧ ∀ c ∈ line, c ∈ text := by
  induction text generalizing line with
  | nil => simp_all
  | cons x text ih =>
    rw [List.splitOn_cons_eq_if_modifyHead] at h
    split at h
    · rcases List.mem_cons.mp h with rfl | hline
      · simp
      · obtain ⟨hsep, hmem⟩ := ih hline
        exact ⟨hsep, fun c hc => by simp [hmem c hc]⟩
    · rename_i hx
      obtain ⟨first, rest, hsplit⟩ := List.exists_cons_of_ne_nil (List.splitOn_ne_nil separator text)
      rw [hsplit, List.modifyHead_cons] at h
      rcases List.mem_cons.mp h with rfl | hline
      · obtain ⟨hsep, hmem⟩ := ih (hsplit ▸ List.mem_cons_self)
        have hne : separator ≠ x := fun heq => hx (by simp [heq])
        refine ⟨by simp [hne, hsep], fun c hc => ?_⟩
        rcases List.mem_cons.mp hc with rfl | hc
        · simp
        · simp [hmem c hc]
      · obtain ⟨hsep, hmem⟩ := ih (hsplit ▸ List.mem_cons_of_mem _ hline)
        exact ⟨hsep, fun c hc => by simp [hmem c hc]⟩

theorem keptLines_append_separator (before after : List α) :
    keptLines separator keep (before ++ separator :: after) =
      keptLines separator keep before ++ keptLines separator keep after := by
  rw [keptLines, List.splitOn_append_cons_self, List.filter_append, keptLines, keptLines]

theorem keptLines_line {line : List α} (h : separator ∉ line) :
    keptLines separator keep line = if keep line then [line] else [] := by
  rw [keptLines, List.splitOn_eq_singleton h, List.filter_singleton]
  cases keep line <;> rfl

/-- What follows a complete text does not change its lines. -/
theorem keptLines_append {before : List α} (hkeep : keep [] = false)
    (h : Complete separator before) (after : List α) :
    keptLines separator keep (before ++ after) =
      keptLines separator keep before ++ keptLines separator keep after := by
  have hnil : keptLines separator keep [] = [] := by
    rw [keptLines_line (by simp), hkeep]
    rfl
  rcases h with rfl | hlast
  · simp [hnil]
  · obtain ⟨text, rfl⟩ := List.getLast?_eq_some_iff.mp hlast
    rw [List.append_assoc, List.singleton_append, keptLines_append_separator,
      keptLines_append_separator, hnil, List.append_nil]

theorem keptLines_append_line {before line : List α} (hkeep : keep [] = false)
    (h : Complete separator before) (hline : separator ∉ line) :
    keptLines separator keep (before ++ line ++ [separator]) =
      keptLines separator keep before ++ if keep line then [line] else [] := by
  have hnil : keptLines separator keep [] = [] := by
    rw [keptLines_line (by simp), hkeep]
    rfl
  rw [List.append_assoc, keptLines_append hkeep h, keptLines_append_separator,
    keptLines_line hline, hnil, List.append_nil]

/-- The lines of a text written line by line. -/
theorem keptLines_flatMap {β : Type} (hkeep : keep [] = false) {write : β → List α} {items : List β}
    (h : ∀ item ∈ items, Complete separator (write item)) :
    keptLines separator keep (items.flatMap write) =
      items.flatMap fun item => keptLines separator keep (write item) := by
  induction items with
  | nil =>
    rw [List.flatMap_nil, keptLines_line (by simp), hkeep]
    rfl
  | cons item items ih =>
    rw [List.flatMap_cons, keptLines_append hkeep (h item (by simp)),
      ih fun i hi => h i (by simp [hi]), List.flatMap_cons]

theorem splitOn_lines_append {lines : List (List α)} (h : ∀ line ∈ lines, separator ∉ line)
    (text : List α) :
    (lines.flatMap (· ++ [separator]) ++ text).splitOn separator =
      lines ++ text.splitOn separator := by
  induction lines with
  | nil => rfl
  | cons line lines ih =>
    rw [List.flatMap_cons, List.append_assoc, List.append_assoc, List.singleton_append,
      List.splitOn_append_cons_self, List.splitOn_eq_singleton (h line (by simp)),
      ih fun l hl => h l (by simp [hl])]
    rfl

theorem splitOn_lines {lines : List (List α)} (h : ∀ line ∈ lines, separator ∉ line) :
    (lines.flatMap (· ++ [separator])).splitOn separator = lines ++ [[]] := by
  simpa using splitOn_lines_append h []

/-- What stands in front of a text is part of its first line. -/
theorem splitOn_append_left {front : List α} (h : separator ∉ front) (text : List α) :
    (front ++ text).splitOn separator = (text.splitOn separator).modifyHead (front ++ ·) := by
  induction front with
  | nil =>
    rw [List.nil_append]
    cases text.splitOn separator <;> rfl
  | cons x front ih =>
    have hne : (x == separator) = false := beq_eq_false_iff_ne.mpr fun heq =>
      h (heq ▸ List.mem_cons_self)
    rw [List.cons_append, List.splitOn_cons_eq_if_modifyHead, hne,
      ih fun hmem => h (List.mem_cons_of_mem x hmem)]
    cases text.splitOn separator <;> rfl

theorem keptLines_lines (hkeep : keep [] = false) {lines : List (List α)}
    (h : ∀ line ∈ lines, separator ∉ line) :
    keptLines separator keep (lines.flatMap (· ++ [separator])) = lines.filter keep := by
  rw [keptLines, splitOn_lines h, List.filter_append, List.filter_singleton, hkeep]
  exact List.append_nil _

/-! The complete lines of a text, and the part behind its last separator -/

def completeLines (separator : α) (text : List α) : List (List α) :=
  (text.splitOn separator).dropLast

def openLine (separator : α) (text : List α) : List α :=
  (text.splitOn separator).getLast (List.splitOn_ne_nil separator text)

theorem mem_completeLines {text line : List α} (h : line ∈ completeLines separator text) :
    separator ∉ line :=
  (mem_line (List.dropLast_subset _ h)).1

theorem not_mem_openLine (text : List α) : separator ∉ openLine separator text :=
  (mem_line (List.getLast_mem _)).1

theorem completeLines_append {lines : List (List α)} (h : ∀ line ∈ lines, separator ∉ line)
    (text : List α) :
    completeLines separator (lines.flatMap (· ++ [separator]) ++ text) =
      lines ++ completeLines separator text := by
  rw [completeLines, splitOn_lines_append h,
    List.dropLast_append_of_ne_nil (List.splitOn_ne_nil separator text), completeLines]

theorem completeLines_of_not_mem {text : List α} (h : separator ∉ text) :
    completeLines separator text = [] := by
  rw [completeLines, List.splitOn_eq_singleton h]
  rfl

theorem openLine_of_not_mem {text : List α} (h : separator ∉ text) :
    openLine separator text = text := by
  simp only [openLine, List.splitOn_eq_singleton h, List.getLast_singleton]

theorem completeLines_cons {line : List α} (h : separator ∉ line) (rest : List α) :
    completeLines separator (line ++ separator :: rest) = line :: completeLines separator rest := by
  have hline : ∀ l ∈ [line], separator ∉ l := by simpa using h
  simpa using completeLines_append hline rest

theorem openLine_cons {line : List α} (h : separator ∉ line) (rest : List α) :
    openLine separator (line ++ separator :: rest) = openLine separator rest := by
  have hsplit : (line ++ separator :: rest).splitOn separator =
      line :: rest.splitOn separator := by
    rw [List.splitOn_append_cons_self, List.splitOn_eq_singleton h, List.singleton_append]
  simp only [openLine, hsplit, List.getLast_cons (List.splitOn_ne_nil separator rest)]

/-- Nothing of a text is lost when it is cut into its lines. -/
theorem lines_append_openLine (text : List α) :
    (completeLines separator text).flatMap (· ++ [separator]) ++ openLine separator text =
      text := by
  induction hn : text.length using Nat.strongRecOn generalizing text with
  | ind n ih =>
    by_cases hmem : separator ∈ text
    · obtain ⟨line, rest, rfl, hline⟩ := List.eq_append_cons_of_mem hmem
      have hlt : rest.length < n := by simp [← hn]; omega
      rw [completeLines_cons hline, openLine_cons hline, List.flatMap_cons, List.append_assoc,
        ih rest.length hlt rest rfl, List.append_assoc, List.singleton_append]
    · rw [completeLines_of_not_mem hmem, openLine_of_not_mem hmem]
      rfl

/-- A front part without separators begins a line. -/
theorem exists_line_append {front : List α} (h : separator ∉ front) (text : List α) :
    ∃ line ∈ (front ++ text).splitOn separator, front.length ≤ line.length := by
  obtain ⟨first, rest, hsplit⟩ := List.exists_cons_of_ne_nil (List.splitOn_ne_nil separator text)
  rw [splitOn_append_left h, hsplit]
  exact ⟨front ++ first, by simp, by simp⟩

end TextLines
