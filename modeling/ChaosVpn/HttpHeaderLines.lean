import ChaosVpn.HttpReceive

/-! The header loop of `httprecv` on lengths alone. It takes at most one line per
recv() and gives up when the line whose turn it is ends the buffered bytes, so which
lines it takes depends on the cut of the stream and not on the bytes. `LinesTaken`
follows it, and `LinesTaken.returns` carries the result back to the loop itself. -/

namespace ChaosVpn.HttpHeaderLines
open CStrings HttpReceive

/-- Lines of the given lengths are taken from `have'` buffered bytes and the pieces
`cuts`, one line a recv(), and no recv() stops at the end of the line whose turn it is. -/
inductive LinesTaken (ending : StreamEnd) :
    List Nat → Nat → List Nat → Nat → List Nat → Prop
  | done {h : Nat} {cuts : List Nat} : LinesTaken ending [] h cuts h cuts
  | wait {l h h₁ h₂ : Nat} {ls cuts cuts₁ cuts₂ : List Nat} :
      arrive ending h cuts = some (h₁, cuts₁) → h₁ < l →
        LinesTaken ending (l :: ls) h₁ cuts₁ h₂ cuts₂ → LinesTaken ending (l :: ls) h cuts h₂ cuts₂
  | line {l h h₁ h₂ : Nat} {ls cuts cuts₁ cuts₂ : List Nat} :
      arrive ending h cuts = some (h₁, cuts₁) → l < h₁ →
        LinesTaken ending ls (h₁ - l) cuts₁ h₂ cuts₂ → LinesTaken ending (l :: ls) h cuts h₂ cuts₂

/-- Header lines as they stand in the stream, and their lengths there. -/
def headerText (ls : List Bytes) : Bytes := ls.flatMap (· ++ [lineFeed])

def lineLengths (ls : List Bytes) : List Nat := ls.map (·.length + 1)

/-- Buffer and socket together hold `text`, of which `h` bytes are buffered. -/
structure Holds (b : Bytes) (sk : Socket) (h : Nat) (cuts : List Nat) (ending : StreamEnd)
    (text : Bytes) : Prop where
  length_eq : b.length = h
  cuts_eq : sk.cuts = cuts
  ending_eq : sk.ending = ending
  fits : b.length ≤ bufsize
  text_eq : b ++ sk.stream = text

theorem headerText_cons (l : Bytes) (ls : List Bytes) (tail : Bytes) :
    headerText (l :: ls) ++ tail = l ++ lineFeed :: (headerText ls ++ tail) := by
  simp [headerText]

theorem eq_cons_of_lineLengths {n : Nat} {ns : List Nat} {ls : List Bytes}
    (h : n :: ns = lineLengths ls) :
    ∃ l ls', ls = l :: ls' ∧ n = l.length + 1 ∧ ns = lineLengths ls' := by
  cases ls with
  | nil => cases h
  | cons l ls => exact ⟨l, ls, rfl, by simpa [lineLengths] using h⟩

variable {b : Bytes} {sk : Socket} {h h₁ : Nat} {cuts cuts₁ : List Nat} {ending : StreamEnd}
  {text l tail : Bytes} {first : Bool} {httpres : Int} {buf : Bytes}

/-- A header pass receives, and then looks at the buffer. -/
theorem Holds.receive (hold : Holds b sk h cuts ending text) (hne : text ≠ [])
    (harrive : arrive ending h cuts = some (h₁, cuts₁)) :
    ∃ b₁ sk₁, b₁ ≠ [] ∧ Holds b₁ sk₁ h₁ cuts₁ ending text ∧ ∀ first httpres buf,
      httprecvPass (.header b sk first httpres buf) = takeLine b₁ sk₁ first httpres buf := by
  obtain ⟨rfl, rfl, rfl, fits, rfl⟩ := hold
  rcases hr : recv sk (bufsize - b.length) with ⟨_ | chunk, sk₁⟩
  · obtain ⟨hs, he⟩ := recv_none_iff.mp (congrArg Prod.fst hr)
    simp [arrive, Socket.cuts, hs, he] at harrive
  · have hcuts := (arrive_eq fits hr).symm.trans harrive
    simp only [Option.some.injEq, Prod.mk.injEq] at hcuts
    obtain ⟨hsome, htext, hfits, hpass⟩ := pass_header fits hr hne
    exact ⟨b ++ chunk, sk₁, hsome, ⟨hcuts.1, hcuts.2, (recv_spec hr).2.1, hfits, htext⟩, hpass⟩

theorem Holds.wait (hold : Holds b sk h cuts ending (l ++ lineFeed :: tail))
    (hl : IsHeaderLine l) (hlt : h < l.length + 1) :
    takeLine b sk first httpres buf = .inl (.header b sk first httpres buf) := by
  obtain ⟨rfl, -, -, -, htext⟩ := hold
  obtain ⟨rest, rfl⟩ : ∃ rest, l = b ++ rest := by
    rcases List.append_eq_append_iff.mp htext with ⟨rest, hl, -⟩ | ⟨c, hb, -⟩
    · exact ⟨rest, hl⟩
    · have : c = [] := by
        have := congrArg List.length hb
        simp only [List.length_append] at this
        exact List.length_eq_zero_iff.mp (by omega)
      exact ⟨[], by simp [hb, this]⟩
  have hlf : lineFeed ∉ b := fun hb => hl.one_line (List.mem_append_left _ hb)
  refine takeLine_open ?_ hlf
  by_cases hb : b = []
  · subst hb
    rfl
  · have := hl.not_lineEnd []
    rwa [List.append_nil, startsWithLineEnd_append hb] at this

/-- A buffer that reaches past the line at the front. -/
theorem Holds.split (hold : Holds b sk h cuts ending (l ++ lineFeed :: tail))
    (hle : l.length + 1 ≤ h) :
    ∃ rest, b = l ++ lineFeed :: rest ∧ Holds rest sk (h - (l.length + 1)) cuts ending tail := by
  obtain ⟨rfl, hcuts, hend, hfits, htext⟩ := hold
  obtain ⟨rest, rfl⟩ : ∃ rest, b = l ++ [lineFeed] ++ rest := by
    rw [List.append_cons] at htext
    rcases List.append_eq_append_iff.mp htext with ⟨c, hl, -⟩ | ⟨c, hb, -⟩
    · have hc : c = [] := by
        have := congrArg List.length hl
        simp only [List.length_append, List.length_singleton] at this
        exact List.length_eq_zero_iff.mp (by omega)
      exact ⟨[], by rw [List.append_nil, hl, hc, List.append_nil]⟩
    · exact ⟨c, hb⟩
  refine ⟨rest, by simp, by simp; omega, hcuts, hend, ?_, ?_⟩
  · simp only [List.length_append] at hfits
    omega
  · simpa using htext

theorem Holds.cut (hold : Holds b sk h cuts ending (l ++ lineFeed :: tail))
    (hl : IsHeaderLine l) (heq : h = l.length + 1) :
    takeLine b sk first httpres buf = .inr ⟨httpEsrverr, httpres, buf⟩ := by
  obtain ⟨rest, rfl, hrest⟩ := hold.split (Nat.le_of_eq heq.symm)
  have hnil : rest = [] := List.length_eq_zero_iff.mp (by rw [hrest.length_eq]; omega)
  simp [takeLine_line hl, hnil]

theorem Holds.line (hold : Holds b sk h cuts ending (l ++ lineFeed :: tail))
    (hl : IsHeaderLine l) (hlt : l.length + 1 < h) :
    ∃ b₁, Holds b₁ sk (h - (l.length + 1)) cuts ending tail ∧ ∀ first httpres buf,
      takeLine b sk first httpres buf =
        afterHeader b₁ sk httpres buf (statusOf first httpres l) := by
  obtain ⟨rest, rfl, hrest⟩ := hold.split (Nat.le_of_lt hlt)
  have hne : rest.isEmpty = false := by
    rw [List.isEmpty_eq_false_iff, ← List.length_pos_iff, hrest.length_eq]
    omega
  exact ⟨rest, hrest, fun first httpres buf => by simp [takeLine_line hl, hne]⟩

/-! Runs of the header loop -/

/-- The flags of the header loop behind some lines; `none` if the status line is refused. -/
def statusAfter (first : Bool) (httpres : Int) : List Bytes → Option (Bool × Int)
  | [] => some (first, httpres)
  | l :: _ => (statusOf first httpres l).map (false, ·)

@[simp] theorem statusAfter_false (httpres : Int) (ls : List Bytes) :
    statusAfter false httpres ls = some (false, httpres) := by
  cases ls <;> rfl

/-- Where the lengths say that the lines are taken, the header loop takes them. -/
theorem LinesTaken.returns {lens : List Nat} {h₂ : Nat} {cuts₂ : List Nat}
    (taken : LinesTaken ending lens h cuts h₂ cuts₂) {ls : List Bytes}
    (hlens : lens = lineLengths ls) (hls : ∀ l ∈ ls, IsHeaderLine l)
    (hold : Holds b sk h cuts ending (headerText ls ++ tail))
    {first' : Bool} {httpres' : Int}
    (hstatus : statusAfter first httpres ls = some (first', httpres')) :
    ∃ b₂ sk₂, Holds b₂ sk₂ h₂ cuts₂ ending tail ∧ ∀ r,
      Loops.Returns httprecvPass (.header b sk first httpres buf) r ↔
        Loops.Returns httprecvPass (.header b₂ sk₂ first' httpres' buf) r := by
  induction taken generalizing b sk ls first httpres with
  | done =>
    obtain rfl : ls = [] := List.map_eq_nil_iff.mp hlens.symm
    obtain ⟨rfl, rfl⟩ : first = first' ∧ httpres = httpres' := by simpa [statusAfter] using hstatus
    exact ⟨b, sk, by simpa [headerText] using hold, fun r => Iff.rfl⟩
  | @wait n h h₁ _ ns _ _ _ harrive hlt _ ih =>
    obtain ⟨l, ls, rfl, hn, -⟩ := eq_cons_of_lineLengths hlens
    rw [headerText_cons] at hold
    obtain ⟨b₁, sk₁, -, hold₁, hpass⟩ := hold.receive (by simp) harrive
    have hwait : takeLine b₁ sk₁ first httpres buf = .inl (.header b₁ sk₁ first httpres buf) :=
      hold₁.wait (hls l (by simp)) (hn ▸ hlt)
    obtain ⟨b₂, sk₂, hold₂, hret⟩ := ih hlens hls (headerText_cons l ls tail ▸ hold₁) hstatus
    exact ⟨b₂, sk₂, hold₂, fun r =>
      (Loops.returns_of_inl ((hpass _ _ _).trans hwait)).trans (hret r)⟩
  | @line n h h₁ _ ns _ _ _ harrive hlt _ ih =>
    obtain ⟨l, ls, rfl, rfl, rfl⟩ := eq_cons_of_lineLengths hlens
    rw [headerText_cons] at hold
    obtain ⟨b₁, sk₁, -, hold₁, hpass⟩ := hold.receive (by simp) harrive
    obtain ⟨b₂, hold₂, hline⟩ := hold₁.line (hls l (by simp)) hlt
    obtain ⟨code, hcode, rfl, rfl⟩ : ∃ code, statusOf first httpres l = some code ∧
        false = first' ∧ code = httpres' := by
      simpa [statusAfter] using hstatus
    obtain ⟨b₃, sk₃, hold₃, hret⟩ := ih rfl (fun x hx => hls x (by simp [hx])) hold₂
      (statusAfter_false _ _)
    have htaken : takeLine b₁ sk₁ first httpres buf = .inl (.header b₂ sk₁ false code buf) := by
      rw [hline, hcode, afterHeader]
    exact ⟨b₃, sk₃, hold₃, fun r =>
      (Loops.returns_of_inl ((hpass _ _ _).trans htaken)).trans (hret r)⟩

end ChaosVpn.HttpHeaderLines
