import ChaosVpn.HttpHeaderLines

/-! Which streams keep the header loop of `httprecv` going for ever: those on which it
comes to a line without an end, because the line does not fit into the buffer or
because the stream stops inside it. -/

namespace ChaosVpn.HttpTermination
open CStrings HttpReceive HttpHeaderLines

variable {b : Bytes} {sk : Socket} {l : Bytes} {first : Bool} {httpres : Int} {buf : Bytes}

/-- A line that never ends for the header loop: no line feed among the bytes that fit
into the buffer, and either more bytes than fit or a recv() that answers 0 for ever. -/
def Endless (ending : StreamEnd) (rest : Bytes) : Prop :=
  rest ≠ [] ∧ startsWithLineEnd rest = false ∧ lineFeed ∉ rest.take bufsize ∧
    (bufsize < rest.length ∨ ending = .eof)

/-- From `b` and `sk` some lines are taken, the status line among them being one that
handle_header accepts, and an endless line is left. -/
def Stalls (b : Bytes) (sk : Socket) (first : Bool) : Prop :=
  ∃ ls rest h₂ cuts₂, b ++ sk.stream = headerText ls ++ rest ∧ (∀ l ∈ ls, IsHeaderLine l) ∧
    (first = true → ∀ l ∈ ls.head?, (handleHeader (chopReturn l)).isSome) ∧
    LinesTaken sk.ending (lineLengths ls) b.length sk.cuts h₂ cuts₂ ∧ Endless sk.ending rest

/-- What the body loop has yet to receive. -/
def unread : RecvState → Nat
  | .header .. => 0
  | .body sk .. => sk.stream.length

theorem body_terminates : Loops.Terminates httprecvPass (.body sk httpres buf) := by
  refine Loops.terminates_of_measure unread
    (fun s => ∃ sk httpres buf, s = .body sk httpres buf) ?_ ⟨sk, httpres, buf, rfl⟩
  rintro _ s' ⟨sk, httpres, buf, rfl⟩ hpass
  rcases hr : recv sk bufsize with ⟨_ | chunk, sk'⟩
  · simp [httprecvPass, hr] at hpass
  · by_cases hc : chunk = []
    · simp [httprecvPass, hr, hc] at hpass
    · obtain rfl : .body sk' httpres (buf ++ chunk) = s' := by
        simpa [httprecvPass, hr, hc] using hpass
      have hlen := congrArg List.length (recv_spec hr).1
      have hpos := List.length_pos_iff.mpr hc
      simp only [List.length_append] at hlen
      exact ⟨⟨_, _, _, rfl⟩, by simp only [unread]; omega⟩

theorem finished_terminates {s : RecvState}
    (h : httprecvPass s = finished b sk first httpres buf) : Loops.Terminates httprecvPass s := by
  cases first with
  | true => exact Loops.terminates_of_inr h
  | false => exact (Loops.terminates_of_inl h).mpr body_terminates

theorem prefix_take_append {x y : Bytes} {n : Nat} (h : x.length ≤ n) :
    x <+: (x ++ y).take n := by
  rw [List.take_append, List.take_of_length_le h]
  exact List.prefix_append _ _

theorem endless_not_terminates (fits : b.length ≤ bufsize)
    (hendless : Endless sk.ending (b ++ sk.stream)) :
    ¬ Loops.Terminates httprecvPass (.header b sk first httpres buf) := by
  induction hn : sk.stream.length using Nat.strongRecOn generalizing b sk with
  | ind n ih =>
    obtain ⟨hne, hstart, hlf, hmore⟩ := hendless
    rcases hr : recv sk (bufsize - b.length) with ⟨_ | chunk, sk'⟩
    · obtain ⟨hs, he⟩ := recv_none_iff.mp (congrArg Prod.fst hr)
      simp [Socket.stream, hs, he] at hmore
      omega
    · obtain ⟨hsome, htext, hfits, hpass⟩ := pass_header fits hr hne
      obtain ⟨hstream, hend, -, hidle⟩ := recv_spec hr
      have hopen : lineFeed ∉ b ++ chunk := fun hmem =>
        hlf (htext ▸ (prefix_take_append hfits).subset hmem)
      have hhead : startsWithLineEnd (b ++ chunk) = false := by
        rwa [← startsWithLineEnd_append hsome sk'.stream, htext]
      have hround := (hpass first httpres buf).trans (takeLine_open hhead hopen)
      by_cases hc : chunk = []
      · obtain ⟨rfl, -⟩ := hidle hc
        exact Loops.not_terminates_of_fixed (by simpa [hc] using hround)
      · rw [Loops.terminates_of_inl hround]
        refine ih _ ?_ hfits (by rw [hend, htext]; exact ⟨hne, hstart, hlf, hmore⟩) rfl
        have hlen := congrArg List.length hstream
        have hpos := List.length_pos_iff.mpr hc
        simp only [List.length_append] at hlen
        omega

/-- Receiving more of the line at the front leaves a stall where it was. -/
theorem Stalls.receive {chunk : Bytes} {sk' : Socket} (fits : b.length ≤ bufsize)
    (hr : recv sk (bufsize - b.length) = (some chunk, sk')) (hlf : lineFeed ∉ b ++ chunk)
    (hstalls : Stalls (b ++ chunk) sk' first) : Stalls b sk first := by
  obtain ⟨ls, rest, h₂, cuts₂, htext, hls, hstatus, taken, hendless⟩ := hstalls
  obtain ⟨hstream, hend, -, -⟩ := recv_spec hr
  rw [List.append_assoc, hstream] at htext
  rw [hend] at taken hendless
  cases ls with
  | nil => exact ⟨[], rest, _, _, htext, hls, hstatus, .done, hendless⟩
  | cons l ls =>
    refine ⟨l :: ls, rest, h₂, cuts₂, htext, hls, hstatus,
      .wait (arrive_eq fits hr) ?_ taken, hendless⟩
    by_contra hlong
    rw [headerText_cons, ← hstream, ← List.append_assoc] at htext
    have hfits : (b ++ chunk).length ≤ bufsize := by
      have := (recv_spec hr).2.2.1
      simp only [List.length_append]
      omega
    obtain ⟨rest, hb, -⟩ := Holds.split ⟨rfl, rfl, rfl, hfits, htext⟩ (Nat.le_of_not_lt hlong)
    exact hlf (by simp [hb])

/-- A taken line is one line more in front of a stall. -/
theorem Stalls.line {chunk rest : Bytes} {sk' : Socket} (fits : b.length ≤ bufsize)
    (hr : recv sk (bufsize - b.length) = (some chunk, sk')) (hl : IsHeaderLine l)
    (hstatus : first = true → (handleHeader (chopReturn l)).isSome)
    (hb : b ++ chunk = l ++ lineFeed :: rest) (hrest : rest ≠ [])
    (hstalls : Stalls rest sk' false) : Stalls b sk first := by
  obtain ⟨ls, last, h₂, cuts₂, htext, hls, -, taken, hendless⟩ := hstalls
  obtain ⟨hstream, hend, -, -⟩ := recv_spec hr
  have hlen : (b ++ chunk).length = l.length + 1 + rest.length := by
    rw [hb]
    simp only [List.length_append, List.length_cons]
    omega
  have hpos := List.length_pos_iff.mpr hrest
  rw [hend] at taken hendless
  refine ⟨l :: ls, last, h₂, cuts₂, ?_, by simpa using ⟨hl, hls⟩, by simpa using hstatus,
    .line (arrive_eq fits hr) (by show l.length + 1 < _; omega) ?_, hendless⟩
  · rw [← hstream, ← List.append_assoc, hb, headerText_cons, ← htext]
    simp
  · rw [hlen]
    show LinesTaken _ (lineLengths ls) (l.length + 1 + rest.length - (l.length + 1)) _ _ _
    rwa [Nat.add_sub_cancel_left]

theorem isHeaderLine_of_split {rest : Bytes} (hlf : lineFeed ∉ l)
    (hstart : startsWithLineEnd (l ++ lineFeed :: rest) = false) : IsHeaderLine l := by
  cases l with
  | nil => simp [startsWithLineEnd, isLineEnd] at hstart
  | cons c cs =>
    simp only [startsWithLineEnd, isLineEnd, List.cons_append, List.head?_cons, Option.any_some,
      Bool.or_eq_false_iff, decide_eq_false_iff_not] at hstart
    exact ⟨by simp, hlf, by simpa using hstart.2⟩

theorem stream_eq_nil (h : sk.stream = []) : sk.segments = [] := by
  cases hs : sk.segments with
  | nil => rfl
  | cons segment rest =>
    have := sk.nonempty segment (by simp [hs])
    simp [Socket.stream, hs, this] at h

theorem terminates_of_nothing (hne : b ++ sk.stream = []) :
    Loops.Terminates httprecvPass (.header b sk first httpres buf) := by
  obtain ⟨rfl, hs⟩ := List.append_eq_nil_iff.mp hne
  have hs := stream_eq_nil hs
  cases he : sk.ending with
  | eof =>
    have hfinished : httprecvPass (.header [] sk first httpres buf) =
        finished [] sk first httpres buf := by
      simp [httprecvPass, recv_nil hs, he]
    exact finished_terminates hfinished
  | error => exact Loops.terminates_of_inr (by simp [httprecvPass, recv_nil hs, he]; rfl)

/-- A recv() that brings nothing leaves an endless line. -/
theorem stalls_of_idle {sk' : Socket} (fits : b.length ≤ bufsize) (hsome : b ≠ [])
    (hr : recv sk (bufsize - b.length) = (some [], sk')) (hstart : startsWithLineEnd b = false)
    (hlf : lineFeed ∉ b) : Stalls b sk first := by
  obtain ⟨-, -, -, hidle⟩ := recv_spec hr
  have hne : b ++ sk.stream ≠ [] := by simp [hsome]
  refine ⟨[], b ++ sk.stream, _, _, by simp [headerText], by simp, by simp, .done,
    hne, by rwa [startsWithLineEnd_append hsome], ?_⟩
  rcases (hidle rfl).2 with ⟨hfull, hs⟩ | ⟨hs, heof⟩
  · have hb : b.length = bufsize := by omega
    have hmore := List.length_pos_iff.mpr (mt stream_eq_nil hs)
    refine ⟨by rwa [← hb, List.take_left], .inl ?_⟩
    simp only [List.length_append]
    omega
  · have hs : sk.stream = [] := by simp [Socket.stream, hs]
    exact ⟨by rwa [hs, List.append_nil, List.take_of_length_le fits], .inr heof⟩

theorem terminates_or_stalls (fits : b.length ≤ bufsize) :
    Loops.Terminates httprecvPass (.header b sk first httpres buf) ∨ Stalls b sk first := by
  induction hn : sk.stream.length + (b ++ sk.stream).length using Nat.strongRecOn
    generalizing b sk first httpres with
  | ind n ih =>
    by_cases hne : b ++ sk.stream = []
    · exact .inl (terminates_of_nothing hne)
    rcases hr : recv sk (bufsize - b.length) with ⟨_ | chunk, sk'⟩
    · exact .inl (Loops.terminates_of_inr (by simp [httprecvPass, hr]; rfl))
    obtain ⟨hstream, -, -, -⟩ := recv_spec hr
    obtain ⟨hsome, htext, hfits, hpass⟩ := pass_header fits hr hne
    have hlen := congrArg List.length hstream
    have htextlen := congrArg List.length htext
    simp only [List.length_append] at hlen htextlen hn
    cases hstart : startsWithLineEnd (b ++ chunk) with
    | true =>
      have hfinished : httprecvPass (.header b sk first httpres buf) =
          finished (b ++ chunk) sk' first httpres buf :=
        (hpass _ _ _).trans (by simp [takeLine, hstart])
      exact .inl (finished_terminates hfinished)
    | false =>
      rcases hsplit : strSplitAt lineFeed (b ++ chunk) with ⟨l, _ | rest⟩
      · obtain ⟨-, hlf⟩ := strSplitAt_none.mp hsplit
        by_cases hc : chunk = []
        · subst hc
          rw [List.append_nil] at hlf hstart hsome
          exact .inr (stalls_of_idle fits hsome hr hstart hlf)
        · have hpos := List.length_pos_iff.mpr hc
          rcases ih (sk'.stream.length + (b ++ chunk ++ sk'.stream).length)
            (by simp only [List.length_append]; omega) hfits rfl with hterm | hstalls
          · exact .inl ((Loops.terminates_of_inl
              ((hpass _ _ _).trans (takeLine_open hstart hlf))).mpr hterm)
          · exact .inr (hstalls.receive fits hr hlf)
      · obtain ⟨hb, hlf⟩ := strSplitAt_some.mp hsplit
        have hl := isHeaderLine_of_split hlf (hb ▸ hstart)
        have htake := (hpass first httpres buf).trans (hb ▸ takeLine_line hl)
        by_cases hrest : rest = []
        · exact .inl (Loops.terminates_of_inr (htake.trans (by simp [hrest]; rfl)))
        cases hstatus : statusOf first httpres l with
        | none => exact .inl (Loops.terminates_of_inr (htake.trans (by simp [hrest, hstatus]; rfl)))
        | some code =>
          have hround : httprecvPass (.header b sk first httpres buf) =
              .inl (.header rest sk' false code buf) := htake.trans (by simp [hrest, hstatus]; rfl)
          have hblen := congrArg List.length hb
          simp only [List.length_append, List.length_cons] at hblen hfits
          have hround' : Loops.Terminates httprecvPass (.header rest sk' false code buf) ∨
              Stalls rest sk' false :=
            ih (sk'.stream.length + (rest ++ sk'.stream).length)
              (by simp only [List.length_append]; omega) (by omega) rfl
          rcases hround' with hterm | hstalls
          · exact .inl ((Loops.terminates_of_inl hround).mpr hterm)
          · refine .inr (hstalls.line fits hr hl ?_ hb hrest)
            rintro rfl
            exact Option.isSome_of_eq_some hstatus

/-- httprecv ends exactly on the streams that do not stall. -/
theorem httprecv_terminates_iff (sk : Socket) (httpres : Int) (buf : Bytes) :
    Loops.Terminates httprecvPass (start sk httpres buf) ↔ ¬ Stalls [] sk true := by
  constructor
  · rintro hterm ⟨ls, rest, h₂, cuts₂, htext, hls, hstatus, taken, hendless⟩
    obtain ⟨code, hcode⟩ : ∃ code, statusAfter true httpres ls = some code := by
      cases ls with
      | nil => exact ⟨_, rfl⟩
      | cons l ls =>
        obtain ⟨code, hcode⟩ := Option.isSome_iff_exists.mp (hstatus rfl l rfl)
        exact ⟨_, by simp only [statusAfter, statusOf, if_true, hcode]; rfl⟩
    obtain ⟨b, sk', hold, hret⟩ : ∃ b sk', Holds b sk' h₂ cuts₂ sk.ending rest ∧
        ∀ r, Loops.Returns httprecvPass (start sk httpres buf) r ↔
          Loops.Returns httprecvPass (.header b sk' code.1 code.2 buf) r :=
      taken.returns rfl hls ⟨rfl, rfl, rfl, Nat.zero_le _, htext⟩ hcode
    have hendless' : Endless sk'.ending (b ++ sk'.stream) := by
      rwa [hold.ending_eq, hold.text_eq]
    exact endless_not_terminates hold.fits hendless' ((exists_congr hret).mp hterm)
  · exact (terminates_or_stalls (Nat.zero_le _)).resolve_right

/-- The server closes the connection in the middle of the status line. -/
def closedEarly : Socket where
  segments := [ascii "HTTP/1.1 200 OK"]
  nonempty := by decide
  ending := .eof

theorem httprecv_closedEarly_runs_forever :
    ¬ Loops.Terminates httprecvPass (start closedEarly 0 []) :=
  endless_not_terminates (Nat.zero_le _) ⟨by decide, by decide, by decide, .inr rfl⟩

end ChaosVpn.HttpTermination
