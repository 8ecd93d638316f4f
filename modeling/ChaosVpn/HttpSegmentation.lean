import ChaosVpn.HttpHeaderLines

/-! Which cuts of a well-formed response deliver its body. The blank line is only
recognised with a byte of the body behind it; over every other cut the response is
refused, or its blank line is handed on as part of the body. -/

namespace ChaosVpn.HttpSegmentation
open CStrings HttpReceive HttpHeaderLines

variable {b : Bytes} {sk : Socket} {h h₁ : Nat} {cuts cuts₁ : List Nat} {tail : Bytes}
  {first : Bool} {httpres : Int} {buf : Bytes}

theorem arrive_eof (h : Nat) (cuts : List Nat) :
    ∃ h₁ cuts₁, arrive .eof h cuts = some (h₁, cuts₁) := by
  cases cuts with
  | nil => exact ⟨_, _, rfl⟩
  | cons cut cuts =>
    simp only [arrive]
    split <;> exact ⟨_, _, rfl⟩

/-- A run that does not end in HTTP_ESRVERR has taken its header lines. -/
theorem linesTaken_of_returns {ls : List Bytes} {r : Received}
    (hret : Loops.Returns httprecvPass (.header b sk first httpres buf) r)
    (hr : r.retval ≠ httpEsrverr)
    (hls : ∀ l ∈ ls, IsHeaderLine l)
    (hold : Holds b sk h cuts .eof (headerText ls ++ tail)) :
    ∃ h₂ cuts₂, LinesTaken .eof (lineLengths ls) h cuts h₂ cuts₂ := by
  obtain ⟨fuel, hfuel⟩ := hret
  induction fuel generalizing b sk h cuts ls first httpres with
  | zero => cases hfuel
  | succ fuel ih =>
    cases ls with
    | nil => exact ⟨_, _, .done⟩
    | cons l ls =>
      have hl := hls l (by simp)
      obtain ⟨h₁, cuts₁, harrive⟩ := arrive_eof h cuts
      rw [headerText_cons] at hold
      obtain ⟨b₁, sk₁, -, hold₁, hpass⟩ := hold.receive (by simp) harrive
      rw [Loops.loop, hpass] at hfuel
      rcases Nat.lt_trichotomy h₁ (l.length + 1) with hlt | heq | hgt
      · rw [hold₁.wait hl hlt] at hfuel
        rw [← headerText_cons] at hold₁
        obtain ⟨h₂, cuts₂, taken⟩ := ih hls hold₁ hfuel
        exact ⟨h₂, cuts₂, .wait harrive hlt taken⟩
      · rw [hold₁.cut hl heq] at hfuel
        obtain rfl := Option.some.inj hfuel
        exact absurd rfl hr
      · obtain ⟨b₂, hold₂, hline⟩ := hold₁.line hl hgt
        rw [hline] at hfuel
        cases hstatus : statusOf first httpres l with
        | none =>
          rw [hstatus] at hfuel
          obtain rfl := Option.some.inj hfuel
          exact absurd rfl hr
        | some code =>
          rw [hstatus] at hfuel
          obtain ⟨h₂, cuts₂, taken⟩ := ih (fun x hx => hls x (by simp [hx])) hold₂ hfuel
          exact ⟨h₂, cuts₂, .line harrive hgt taken⟩

/-! The body loop and the blank line -/

/-- Against a stream that ends, the body loop appends all of it. -/
theorem body_returns (heof : sk.ending = .eof) :
    Loops.Returns httprecvPass (.body sk httpres buf)
      ⟨if httpres = 200 then httpEok else httpEsrverr, httpres, buf ++ sk.stream⟩ := by
  induction hn : sk.stream.length using Nat.strongRecOn generalizing sk buf with
  | ind n ih =>
    rcases hr : recv sk bufsize with ⟨_ | chunk, sk'⟩
    · have := recv_none_iff.mp (congrArg Prod.fst hr)
      simp [heof] at this
    · obtain ⟨hstream, hend, -, hidle⟩ := recv_spec hr
      by_cases hc : chunk = []
      · have hpass : httprecvPass (.body sk httpres buf) =
            .inr ⟨if httpres = 200 then httpEok else httpEsrverr, httpres, buf⟩ := by
          simp [httprecvPass, hr, hc]
        rw [Loops.returns_of_inr hpass]
        rcases (hidle hc).2 with ⟨h0, -⟩ | ⟨hs, -⟩
        · exact absurd h0 (by decide)
        · simp [Socket.stream, hs]
      · have hpass : httprecvPass (.body sk httpres buf) =
            .inl (.body sk' httpres (buf ++ chunk)) := by
          simp [httprecvPass, hr, hc]
        rw [Loops.returns_of_inl hpass, ← hstream, ← List.append_assoc]
        refine ih _ ?_ (hend.trans heof) rfl
        have := congrArg List.length hstream
        have hpos := List.length_pos_iff.mpr hc
        simp only [List.length_append] at this
        omega

def blankLine : Bytes := [carriageReturn, lineFeed]

/-- At the blank line the header loop is left. The line is skipped only if a byte of the
body is already buffered with it, and is else taken for the beginning of the body. -/
theorem blank_returns {body : Bytes} (hold : Holds b sk h cuts .eof (blankLine ++ body))
    (harrive : arrive .eof h cuts = some (h₁, cuts₁)) :
    Loops.Returns httprecvPass (.header b sk false httpres buf)
      ⟨if httpres = 200 then httpEok else httpEsrverr, httpres,
        buf ++ if 3 ≤ h₁ then body else blankLine ++ body⟩ := by
  obtain ⟨b₁, sk₁, hne, hold₁, hpass⟩ := hold.receive (by simp [blankLine]) harrive
  obtain ⟨hlen, -, hend, -, htext⟩ := hold₁
  have hfinish : httprecvPass (.header b sk false httpres buf) =
      .inl (.body sk₁ httpres (buf ++ skipBlankLine b₁)) := by
    have hstart : startsWithLineEnd b₁ = true := by
      obtain ⟨x, xs, rfl⟩ := List.exists_cons_of_ne_nil hne
      obtain ⟨rfl, -⟩ := List.cons.inj htext
      rfl
    rw [hpass]
    simp [takeLine, hstart, finished]
  rw [Loops.returns_of_inl hfinish]
  have hskip : skipBlankLine b₁ ++ sk₁.stream = if 3 ≤ h₁ then body else blankLine ++ body := by
    subst hlen
    rcases b₁ with _ | ⟨x, _ | ⟨y, _ | ⟨z, rest⟩⟩⟩
    · exact absurd rfl hne
    · simpa [skipBlankLine] using htext
    · simpa [skipBlankLine] using htext
    · simp only [blankLine, List.cons_append, List.nil_append, List.cons.injEq] at htext
      obtain ⟨rfl, rfl, rfl⟩ := htext
      simp [skipBlankLine, isLineEnd]
  have hbody : Loops.Returns httprecvPass (.body sk₁ httpres (buf ++ skipBlankLine b₁)) _ :=
    body_returns hend
  rwa [List.append_assoc, hskip] at hbody

/-! Cuts that deliver the body -/

/-- A response with status 200: what stands between its fixed parts. -/
structure Response where
  version : Bytes
  reason : Bytes
  headers : List Bytes
  body : Bytes
  version_ok : ∀ c ∈ version, c ≠ space ∧ c ≠ lineFeed ∧ c ≠ 0
  reason_ok : ∀ c ∈ reason, c ≠ lineFeed ∧ c ≠ 0
  headers_ok : ∀ h ∈ headers, IsHeaderLine h

namespace Response

def statusLine (R : Response) : Bytes :=
  ascii "HTTP/" ++ R.version ++ ascii " 200 " ++ R.reason

/-- The lines in front of the blank line, without their line feeds. -/
def lines (R : Response) : List Bytes :=
  (R.statusLine :: R.headers).map (· ++ [carriageReturn])

def stream (R : Response) : Bytes := headerText R.lines ++ (blankLine ++ R.body)

theorem isHeaderLine (R : Response) : ∀ l ∈ R.lines, IsHeaderLine l := by
  have hreturn : ∀ l, IsHeaderLine l → IsHeaderLine (l ++ [carriageReturn]) := by
    intro l hl
    obtain ⟨c, cs, rfl⟩ := List.exists_cons_of_ne_nil hl.nonempty
    have hne : lineFeed ≠ carriageReturn := by decide
    exact ⟨by simp, by simpa [hne, eq_comm] using hl.one_line, by simpa using hl.not_blank⟩
  have hstatus : IsHeaderLine R.statusLine := by
    have hversion : lineFeed ∉ R.version := fun h => (R.version_ok _ h).2.1 rfl
    have hreason : lineFeed ∉ R.reason := fun h => (R.reason_ok _ h).1 rfl
    have hhttp : lineFeed ∉ ascii "HTTP/" := by decide
    have hcode : lineFeed ∉ ascii " 200 " := by decide
    exact ⟨List.cons_ne_nil _ _, by simp [statusLine, hversion, hreason, hhttp, hcode],
      ne_of_beq_false rfl⟩
  intro l hl
  obtain ⟨l, hmem, rfl⟩ := List.mem_map.mp hl
  rcases List.mem_cons.mp hmem with rfl | hmem
  · exact hreturn _ hstatus
  · exact hreturn _ (R.headers_ok _ hmem)

theorem handleHeader_statusLine (R : Response) : handleHeader R.statusLine = some 200 := by
  have hversion : 0 ∉ R.version := fun h => (R.version_ok _ h).2.2 rfl
  have hreason : 0 ∉ R.reason := fun h => (R.reason_ok _ h).2 rfl
  have hblank : space ∉ R.version := fun h => (R.version_ok _ h).1 rfl
  have hguard : (R.statusLine.length < 4 || R.statusLine.contains 0 ||
      R.statusLine.take 4 != ascii "HTTP") = false := by
    have hhttp : 0 ∉ ascii "HTTP/" := by decide
    have hcode : 0 ∉ ascii " 200 " := by decide
    have hnul : 0 ∉ R.statusLine := by
      simp [statusLine, hversion, hreason, hhttp, hcode]
    have htake : R.statusLine.take 4 = ascii "HTTP" := rfl
    have hlen : ¬ R.statusLine.length < 4 := by
      have := congrArg List.length htake
      simp only [List.length_take] at this
      have h4 : (ascii "HTTP").length = 4 := rfl
      omega
    simp [hnul, htake, hlen]
  have hfirst : strSplitAt space R.statusLine =
      (ascii "HTTP/" ++ R.version, some (ascii "200 " ++ R.reason)) := by
    have hhttp : space ∉ ascii "HTTP/" := by decide
    refine strSplitAt_some.mpr ⟨?_, by simp [hhttp, hblank]⟩
    simp [statusLine, show ascii " 200 " = space :: ascii "200 " from rfl]
  have hsecond : strSplitAt space (ascii "200 " ++ R.reason) = (ascii "200", some R.reason) :=
    strSplitAt_some.mpr ⟨rfl, by decide⟩
  rw [handleHeader, hguard, hfirst]
  simp only [Bool.false_eq_true, if_false, hsecond]
  rfl

theorem statusAfter_lines (R : Response) (httpres : Int) :
    statusAfter true httpres R.lines = some (false, 200) := by
  have hchop : chopReturn (R.statusLine ++ [carriageReturn]) = R.statusLine := by
    simp [chopReturn]
  simp [statusAfter, lines, statusOf, hchop, handleHeader_statusLine]

end Response

/-- The cut lets the lines be taken one by one, and when the turn of the blank line comes
the recv() before it has put at least one byte of the body behind it. -/
def Delivers (lens cuts : List Nat) : Prop :=
  ∃ h cuts' h₁ cuts₁, LinesTaken .eof lens 0 cuts h cuts' ∧
    arrive .eof h cuts' = some (h₁, cuts₁) ∧ 3 ≤ h₁

/-- A response is received as sent exactly over the cuts that deliver it. -/
theorem httprecv_body_iff (R : Response) (sk : Socket) (hstream : sk.stream = R.stream)
    (heof : sk.ending = .eof) (httpres : Int) (buf : Bytes) :
    Loops.Returns httprecvPass (start sk httpres buf) ⟨httpEok, 200, buf ++ R.body⟩ ↔
      Delivers (lineLengths R.lines) sk.cuts := by
  have hold : Holds [] sk 0 sk.cuts .eof (headerText R.lines ++ (blankLine ++ R.body)) :=
    ⟨rfl, rfl, heof, Nat.zero_le _, hstream⟩
  have hreturns : ∀ {h cuts' h₁ cuts₁}, LinesTaken .eof (lineLengths R.lines) 0 sk.cuts h cuts' →
      arrive .eof h cuts' = some (h₁, cuts₁) →
        Loops.Returns httprecvPass (start sk httpres buf)
          ⟨httpEok, 200, buf ++ if 3 ≤ h₁ then R.body else blankLine ++ R.body⟩ := by
    intro h cuts' h₁ cuts₁ taken harrive
    obtain ⟨b, sk', hold', hret⟩ :=
      taken.returns rfl R.isHeaderLine hold (R.statusAfter_lines httpres)
    exact (hret _).mpr (blank_returns hold' harrive)
  constructor
  · intro hret
    obtain ⟨h, cuts', taken⟩ := linesTaken_of_returns hret (by simp [httpEok, httpEsrverr])
      R.isHeaderLine hold
    obtain ⟨h₁, cuts₁, harrive⟩ := arrive_eof h cuts'
    refine ⟨h, cuts', h₁, cuts₁, taken, harrive, ?_⟩
    by_contra hfew
    have hboth := hret.unique (hreturns taken harrive)
    rw [if_neg hfew] at hboth
    have hlen := congrArg (fun r : Received => r.buf.length) hboth
    simp only [List.length_append, blankLine, List.length_cons, List.length_nil] at hlen
    omega
  · rintro ⟨h, cuts', h₁, cuts₁, taken, harrive, h3⟩
    have := hreturns taken harrive
    rwa [if_pos h3] at this

def okResponse : Response where
  version := ascii "1.1"
  reason := ascii "OK"
  headers := []
  body := ascii "x"
  version_ok := by decide
  reason_ok := by decide
  headers_ok := by simp

/-- The first recv() returns the status line, the second one everything else. -/
def cutAfterStatusLine : Socket where
  segments := [ascii "HTTP/1.1 200 OK\r\n", ascii "\r\nx"]
  nonempty := by decide
  ending := .eof

theorem httprecv_cut_after_statusLine :
    cutAfterStatusLine.stream = okResponse.stream ∧
      Loops.Returns httprecvPass (start cutAfterStatusLine 0 []) ⟨httpEsrverr, 0, []⟩ ∧
        ¬ Loops.Returns httprecvPass (start cutAfterStatusLine 0 [])
          ⟨httpEok, 200, okResponse.body⟩ := by
  have hfail : Loops.Returns httprecvPass (start cutAfterStatusLine 0 []) ⟨httpEsrverr, 0, []⟩ :=
    ⟨1, by decide⟩
  exact ⟨by decide, hfail, fun h => absurd (hfail.unique h) (by decide)⟩

def inOnePiece : Socket where
  segments := [okResponse.stream]
  nonempty := by decide
  ending := .eof

theorem httprecv_body_inOnePiece :
    Loops.Returns httprecvPass (start inOnePiece 0 []) ⟨httpEok, 200, okResponse.body⟩ :=
  (httprecv_body_iff okResponse inOnePiece (by decide) rfl 0 []).mpr
    ⟨3, [], 3, [], .line (show arrive _ _ _ = some (20, []) from rfl) (by decide) .done, rfl,
      by decide⟩

end ChaosVpn.HttpSegmentation
