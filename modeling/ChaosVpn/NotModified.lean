import ChaosVpn.FetchAndApply
import ChaosVpn.HttpParseUrl
import ChaosVpn.HttpTermination

/-! Where main_request_config learns that nothing was modified. The status code goes
through `httpres`, which only handle_header writes, and httprecv also fails with the
same error before it has come to the status line. -/

namespace ChaosVpn.NotModified
open CStrings StringBuffer TextLines Settings HttpReceive HttpTermination HttpParseUrl RequestConfig
  FetchAndApply

/-- http_get with the connection it gets: `none` where the name is not found, no address
can be connected to or the request cannot be sent. -/
def httpGet (fuel : Nat) (url : Bytes) (connection : Option Socket) (httpres : Int) :
    Option HttpResult :=
  let retval := (httpParseurl url stringInit 0 stringInit).retval
  if retval ≠ httpEok then some ⟨retval, httpres, []⟩
  else
    match connection with
    | none => some ⟨httpEneterr, httpres, []⟩
    | some sk => (httprecv fuel sk httpres []).map fun r => ⟨r.retval, r.httpres, r.buf⟩

def httpurl (masterUrl : Bytes) (config : Config) : Bytes :=
  masterUrl ++ ascii "?id=" ++ config.peerid

/-- In the run from a state on, handle_header gets the status line and reads the code. -/
inductive ReadsStatus : RecvState → Int → Prop
  | read {b rest line : Bytes} {sk sk' : Socket} {httpres code : Int} {buf : Bytes} :
      httprecvPass (.header b sk true httpres buf) =
          afterHeader rest sk' httpres buf (handleHeader (chopReturn line)) →
        handleHeader (chopReturn line) = some code →
          ReadsStatus (.header b sk true httpres buf) code
  | later {s s' : RecvState} {code : Int} :
      httprecvPass s = .inl s' → ReadsStatus s' code → ReadsStatus s code

/-- What is taken for "not modified" is a 304 of this response. -/
def NeedsStatus304 (config : Config) (env : RequestEnv) (masterUrl : Bytes)
    (connection : Option Socket) (httpres ifmodifiedsince : Int) (httpResponse : StructString) :
    Prop :=
  ∀ fuel http request, httpGet fuel (httpurl masterUrl config) connection httpres = some http →
    mainRequestConfig config { env with httpGet := fun _ => http } ifmodifiedsince httpResponse =
        some request →
      request.retval = 0 → ∃ sk, connection = some sk ∧ ReadsStatus (start sk httpres []) 304

/-- With `h` bytes in the buffer, a recv() will end at the byte `n`: at the end of a piece,
or because the buffer is full. -/
def Lands (h : Nat) (cuts : List Nat) (n : Nat) : Prop :=
  n = bufsize ∨ ∃ k, h + (cuts.take k).sum = n

/-- The streams on which httprecv gives up without a status code. -/
inductive StatusMissed (h : Nat) (cuts : List Nat) (ending : StreamEnd) : Bytes → Prop
  | closed : ending = .eof → StatusMissed h cuts ending []
  | blank {text : Bytes} : startsWithLineEnd text = true → StatusMissed h cuts ending text
  | cut {l tail : Bytes} : IsHeaderLine l → l.length < bufsize → Lands h cuts (l.length + 1) →
      StatusMissed h cuts ending (l ++ lineFeed :: tail)
  | refused {l tail : Bytes} : IsHeaderLine l → l.length < bufsize →
      handleHeader (chopReturn l) = none → StatusMissed h cuts ending (l ++ lineFeed :: tail)

/-! One recv() -/

theorem lands_iff {ending : StreamEnd} {h h' n : Nat} {cuts cuts' : List Nat}
    (harrive : arrive ending h cuts = some (h', cuts')) (hn : h < n) (hfits : n ≤ bufsize) :
    Lands h cuts n ↔ n = h' ∨ h' < n ∧ Lands h' cuts' n := by
  cases cuts with
  | nil =>
    simp only [arrive, Option.ite_none_right_eq_some, Option.some.injEq, Prod.mk.injEq] at harrive
    obtain ⟨-, rfl, rfl⟩ := harrive
    simp [Lands]
    omega
  | cons cut cuts =>
    rw [arrive] at harrive
    split at harrive
    · rename_i hfull
      simp only [Option.some.injEq, Prod.mk.injEq] at harrive
      obtain ⟨rfl, -⟩ := harrive
      have hnone : ∀ k, h + ((cut :: cuts).take k).sum ≠ n := by
        rintro (_ | k)
        · simp only [List.take_zero, List.sum_nil]
          omega
        · simp only [List.take_succ_cons, List.sum_cons]
          omega
      simp only [Lands, hnone, exists_false, or_false]
      omega
    · simp only [Option.some.injEq, Prod.mk.injEq] at harrive
      obtain ⟨rfl, rfl⟩ := harrive
      constructor
      · rintro (rfl | ⟨_ | k, hk⟩)
        · rw [Lands]
          omega
        · simp only [List.take_zero, List.sum_nil] at hk
          omega
        · simp only [List.take_succ_cons, List.sum_cons] at hk
          by_cases hnow : n = h + cut
          · exact .inl hnow
          · exact .inr ⟨by omega, .inr ⟨k, by omega⟩⟩
      · rintro (rfl | ⟨-, hfull | ⟨k, hk⟩⟩)
        · exact .inr ⟨1, by simp⟩
        · exact .inl hfull
        · exact .inr ⟨k + 1, by simpa [Nat.add_assoc] using hk⟩

variable {b chunk l rest text tail buf : Bytes} {sk sk' : Socket} {h : Nat} {cuts : List Nat}
  {ending : StreamEnd} {httpres code : Int}

theorem statusMissed_line_iff (hl : IsHeaderLine l) :
    StatusMissed h cuts ending (l ++ lineFeed :: tail) ↔
      l.length < bufsize ∧ (Lands h cuts (l.length + 1) ∨ handleHeader (chopReturn l) = none) := by
  constructor
  · intro hmissed
    have hsame {l' tail' : Bytes} (hl' : IsHeaderLine l')
        (heq : l ++ lineFeed :: tail = l' ++ lineFeed :: tail') : l = l' := by
      have hsplit : strSplitAt lineFeed (l ++ lineFeed :: tail) = (l, some tail) :=
        strSplitAt_some.mpr ⟨rfl, hl.one_line⟩
      rw [heq, strSplitAt_some.mpr ⟨rfl, hl'.one_line⟩] at hsplit
      exact (congrArg Prod.fst hsplit).symm
    generalize htext : l ++ lineFeed :: tail = text at hmissed
    cases hmissed with
    | closed _ => simp at htext
    | blank hblank =>
      rw [← htext, hl.not_lineEnd] at hblank
      cases hblank
    | cut hl' hfits hlands =>
      obtain rfl := hsame hl' htext
      exact ⟨hfits, .inl hlands⟩
    | refused hl' hfits hnone =>
      obtain rfl := hsame hl' htext
      exact ⟨hfits, .inr hnone⟩
  · rintro ⟨hfits, hlands | hnone⟩
    · exact .cut hl hfits hlands
    · exact .refused hl hfits hnone

/-- A text whose first line does not end in the buffer. -/
theorem not_statusMissed_of_open (hne : text ≠ []) (hstart : startsWithLineEnd text = false)
    (hlf : lineFeed ∉ text.take bufsize) : ¬ StatusMissed h cuts ending text := by
  have hopen {l tail : Bytes} (hfits : l.length < bufsize) (htext : text = l ++ lineFeed :: tail) :
      False := by
    refine hlf (htext ▸ ?_)
    rw [List.append_cons]
    have hlen : (l ++ [lineFeed]).length ≤ bufsize := by
      rw [List.length_append]
      exact hfits
    exact (prefix_take_append hlen).subset (by simp)
  intro hmissed
  cases hmissed with
  | closed _ => exact hne rfl
  | blank hblank => simp [hstart] at hblank
  | cut _ hfits _ => exact hopen hfits rfl
  | refused _ hfits _ => exact hopen hfits rfl

theorem statusMissed_receive_iff (fits : b.length ≤ bufsize)
    (hr : recv sk (bufsize - b.length) = (some chunk, sk')) (hlf : lineFeed ∉ b ++ chunk) :
    StatusMissed b.length sk.cuts sk.ending (b ++ sk.stream) ↔
      StatusMissed (b ++ chunk).length sk'.cuts sk'.ending (b ++ chunk ++ sk'.stream) := by
  obtain ⟨hstream, hend, -, -⟩ := recv_spec hr
  have harrive := arrive_eq fits hr
  rw [List.append_assoc, hstream, hend]
  have hlands {l tail : Bytes} (htext : b ++ sk.stream = l ++ lineFeed :: tail)
      (hfits : l.length < bufsize) :
      Lands b.length sk.cuts (l.length + 1) ↔
        Lands (b ++ chunk).length sk'.cuts (l.length + 1) := by
    rw [← hstream, ← List.append_assoc] at htext
    have hlen := length_le_of_not_mem htext hlf
    have hle : b.length ≤ (b ++ chunk).length := by simp
    rw [lands_iff harrive (by omega) (by omega)]
    exact ⟨fun hl => (hl.resolve_left (by omega)).2, fun hl => .inr ⟨by omega, hl⟩⟩
  generalize htext : b ++ sk.stream = text at hlands
  constructor
  · intro hmissed
    cases hmissed with
    | closed heof => exact .closed heof
    | blank hblank => exact .blank hblank
    | cut hl hfits hl' => exact .cut hl hfits ((hlands rfl hfits).mp hl')
    | refused hl hfits hnone => exact .refused hl hfits hnone
  · intro hmissed
    cases hmissed with
    | closed heof => exact .closed heof
    | blank hblank => exact .blank hblank
    | cut hl hfits hl' => exact .cut hl hfits ((hlands rfl hfits).mpr hl')
    | refused hl hfits hnone => exact .refused hl hfits hnone

/-! The run -/

theorem not_readsStatus_of_inr {s : RecvState} {r : Received} (h : httprecvPass s = .inr r) :
    ¬ ReadsStatus s code := by
  intro hreads
  cases hreads with
  | read hpass hcode =>
    rw [h, hcode] at hpass
    cases hpass
  | later hpass _ =>
    rw [h] at hpass
    cases hpass

theorem readsStatus_of_open {b' : Bytes}
    (h : httprecvPass (.header b sk true httpres buf) = .inl (.header b' sk' true httpres buf)) :
    ReadsStatus (.header b sk true httpres buf) code ↔
      ReadsStatus (.header b' sk' true httpres buf) code := by
  constructor
  · intro hreads
    cases hreads with
    | read hpass hcode =>
      rw [h, hcode] at hpass
      cases hpass
    | later hpass hlater =>
      rw [h] at hpass
      cases hpass
      exact hlater
  · exact .later h

/-- Once the status is read, it is what httprecv reports. -/
def Served (code : Int) : RecvState → Prop
  | .header _ _ first httpres _ => first = false ∧ httpres = code
  | .body _ httpres _ => httpres = code

theorem served_pass {s : RecvState} (hs : Served code s) :
    Sum.elim (Served code) (fun r => r.httpres = code) (httprecvPass s) := by
  cases s with
  | body sk httpres buf =>
    obtain rfl : httpres = code := hs
    rcases hr : recv sk bufsize with ⟨_ | chunk, sk'⟩
    · simp [httprecvPass, hr]
    · by_cases hc : chunk = [] <;> simp [httprecvPass, hr, hc, Served]
  | header b sk first httpres buf =>
    obtain ⟨rfl, rfl⟩ := hs
    rcases hr : recv sk (bufsize - b.length) with ⟨_ | chunk, sk'⟩
    · simp [httprecvPass, hr]
    · rw [httprecvPass, hr]
      dsimp only
      split
      · simp [finished, Served]
      · unfold takeLine
        split
        · simp [finished, Served]
        · split
          · simp [Served]
          · split <;> simp [afterHeader, statusOf, Served]

theorem served_returns {s : RecvState} {r : Received} (hs : Served code s)
    (h : Loops.Returns httprecvPass s r) : r.httpres = code := by
  refine h.invariant (Served code) (fun r' => r'.httpres = code) (fun t t' ht hpass => ?_)
    (fun t r' ht hpass => ?_) hs
  · simpa [hpass] using served_pass ht
  · simpa [hpass] using served_pass ht

/-- Either httprecv fails and has not touched `httpres`, or it reports what it has read. -/
def Missed (s : RecvState) (httpres : Int) (buf : Bytes) : Prop :=
  Loops.Returns httprecvPass s ⟨httpEsrverr, httpres, buf⟩ ∧ ∀ code, ¬ ReadsStatus s code

def Reported (s : RecvState) : Prop :=
  ∀ r, Loops.Returns httprecvPass s r → r.retval = httpEsrverr → ReadsStatus s r.httpres

theorem missed_of_inr {s : RecvState} (h : httprecvPass s = .inr ⟨httpEsrverr, httpres, buf⟩) :
    Missed s httpres buf :=
  ⟨(Loops.returns_of_inr h).mpr rfl, fun _ => not_readsStatus_of_inr h⟩

theorem reported_of_neterr {s : RecvState}
    (h : httprecvPass s = .inr ⟨httpEneterr, httpres, buf⟩) : Reported s := by
  intro r hr hretval
  have hne : httpEneterr ≠ httpEsrverr := by decide
  rw [Loops.returns_of_inr h] at hr
  rw [← hr] at hretval
  exact absurd hretval hne

/-- The stream misses the status and so does httprecv, or neither of them does. -/
def MissedOrReported (b : Bytes) (sk : Socket) (httpres : Int) (buf : Bytes) : Prop :=
  StatusMissed b.length sk.cuts sk.ending (b ++ sk.stream) ∧
      Missed (.header b sk true httpres buf) httpres buf ∨
    ¬ StatusMissed b.length sk.cuts sk.ending (b ++ sk.stream) ∧
      Reported (.header b sk true httpres buf)

/-- Nothing is left to read. -/
theorem missedOrReported_nothing (hne : b ++ sk.stream = []) :
    MissedOrReported b sk httpres buf := by
  obtain ⟨rfl, hstream⟩ := List.append_eq_nil_iff.mp hne
  have hs := stream_eq_nil hstream
  cases he : sk.ending with
  | eof =>
    have hpass : httprecvPass (.header [] sk true httpres buf) =
        .inr ⟨httpEsrverr, httpres, buf⟩ := by
      simp [httprecvPass, recv_nil hs, he, finished]
    exact .inl ⟨by rw [hne]; exact .closed he, missed_of_inr hpass⟩
  | error =>
    have hpass : httprecvPass (.header [] sk true httpres buf) =
        .inr ⟨httpEneterr, httpres, buf⟩ := by
      simp [httprecvPass, recv_nil hs, he]
    refine .inr ⟨fun hmissed => ?_, reported_of_neterr hpass⟩
    generalize htext : [] ++ sk.stream = text at hmissed
    rw [hne] at htext
    cases hmissed with
    | closed heof => cases he.symm.trans heof
    | blank hblank => simp [← htext, startsWithLineEnd] at hblank
    | cut _ _ _ => simp at htext
    | refused _ _ _ => simp at htext

/-- The line at the front has no end in the buffer, and none comes. -/
theorem not_statusMissed_of_stuck (hne : b ++ sk.stream ≠ []) (hlf : lineFeed ∉ b)
    (hstart : startsWithLineEnd b = false) (hsome : b ≠ [])
    (htake : (b ++ sk.stream).take bufsize = b) :
    ¬ StatusMissed b.length sk.cuts sk.ending (b ++ sk.stream) :=
  not_statusMissed_of_open hne (by rwa [startsWithLineEnd_append hsome]) (by rwa [htake])

/-- A whole line is in the buffer. -/
theorem missedOrReported_line {chunk rest : Bytes} {sk' : Socket} (fits : b.length ≤ bufsize)
    (hlf : lineFeed ∉ b) (hne : b ++ sk.stream ≠ [])
    (hr : recv sk (bufsize - b.length) = (some chunk, sk'))
    (hfirst : startsWithLineEnd (b ++ chunk) = false)
    (hsplit : strSplitAt lineFeed (b ++ chunk) = (l, some rest)) :
    MissedOrReported b sk httpres buf := by
  obtain ⟨hb, hlf'⟩ := strSplitAt_some.mp hsplit
  obtain ⟨-, htext, hfits, hpass⟩ := pass_header fits hr hne
  have hl := isHeaderLine_of_split hlf' (hb ▸ hfirst)
  have htake := (hpass true httpres buf).trans (hb ▸ takeLine_line hl)
  have hblen := congrArg List.length hb
  simp only [List.length_append, List.length_cons] at hblen hfits
  have hlands : Lands b.length sk.cuts (l.length + 1) ↔ rest = [] := by
    have hle := length_le_of_not_mem hb hlf
    rw [lands_iff (arrive_eq fits hr) (by omega) (by omega), List.length_append,
      ← List.length_eq_zero_iff]
    omega
  have hmissed : StatusMissed b.length sk.cuts sk.ending (b ++ sk.stream) ↔
      rest = [] ∨ handleHeader (chopReturn l) = none := by
    rw [← htext, hb, List.append_assoc, List.cons_append, statusMissed_line_iff hl, hlands]
    exact and_iff_right (by omega)
  rw [MissedOrReported, hmissed]
  by_cases hrest : rest = []
  · exact .inl ⟨.inl hrest, missed_of_inr (htake.trans (by simp [hrest]))⟩
  have hstatus : httprecvPass (.header b sk true httpres buf) =
      afterHeader rest sk' httpres buf (handleHeader (chopReturn l)) := by
    simp [htake, hrest, statusOf]
  cases hcode : handleHeader (chopReturn l) with
  | none => exact .inl ⟨.inr rfl, missed_of_inr (by rw [hstatus, hcode, afterHeader])⟩
  | some code =>
    refine .inr ⟨by simp [hrest], fun r hreturns _ => ?_⟩
    have hnext : httprecvPass (.header b sk true httpres buf) =
        .inl (.header rest sk' false code buf) := by rw [hstatus, hcode, afterHeader]
    have hserved : Served code (.header rest sk' false code buf) := ⟨rfl, rfl⟩
    rw [served_returns hserved ((Loops.returns_of_inl hnext).mp hreturns)]
    exact .read hstatus hcode

/-- A round that only receives more of the line decides nothing. -/
theorem MissedOrReported.receive {chunk : Bytes} {sk' : Socket} (fits : b.length ≤ bufsize)
    (hr : recv sk (bufsize - b.length) = (some chunk, sk')) (hlf : lineFeed ∉ b ++ chunk)
    (hround : httprecvPass (.header b sk true httpres buf) =
      .inl (.header (b ++ chunk) sk' true httpres buf))
    (h : MissedOrReported (b ++ chunk) sk' httpres buf) : MissedOrReported b sk httpres buf := by
  rw [MissedOrReported, statusMissed_receive_iff fits hr hlf]
  refine h.imp (And.imp_right ?_) (And.imp_right ?_)
  · rintro ⟨hreturns, hnone⟩
    exact ⟨(Loops.returns_of_inl hround).mpr hreturns,
      fun code hreads => hnone code ((readsStatus_of_open hround).mp hreads)⟩
  · intro hreported r hreturns hretval
    exact .later hround (hreported r ((Loops.returns_of_inl hround).mp hreturns) hretval)

theorem missed_or_reported (fits : b.length ≤ bufsize) (hlf : lineFeed ∉ b)
    (hstart : startsWithLineEnd b = false) : MissedOrReported b sk httpres buf := by
  induction hn : sk.stream.length using Nat.strongRecOn generalizing b sk with
  | ind n ih =>
    by_cases hne : b ++ sk.stream = []
    · exact missedOrReported_nothing hne
    have hstuck := not_statusMissed_of_stuck hne hlf hstart
    rcases hr : recv sk (bufsize - b.length) with ⟨_ | chunk, sk'⟩
    · obtain ⟨hs, -⟩ := recv_none_iff.mp (congrArg Prod.fst hr)
      have hstream : sk.stream = [] := by simp [Socket.stream, hs]
      rw [hstream, List.append_nil] at hne hstuck
      have hmissed := hstuck hne (List.take_of_length_le fits)
      refine .inr ⟨by rwa [hstream, List.append_nil], ?_⟩
      have hpass : httprecvPass (.header b sk true httpres buf) =
          .inr ⟨httpEneterr, httpres, buf⟩ := by
        simp [httprecvPass, hr]
      exact reported_of_neterr hpass
    obtain ⟨hstream, hend, hroom, hidle⟩ := recv_spec hr
    obtain ⟨hsome, htext, hfits, hpass⟩ := pass_header fits hr hne
    cases hfirst : startsWithLineEnd (b ++ chunk) with
    | true =>
      refine .inl ⟨.blank ?_, missed_of_inr ((hpass _ _ _).trans ?_)⟩
      · rwa [← htext, startsWithLineEnd_append hsome]
      · simp [takeLine, hfirst, finished]
    | false =>
      rcases hsplit : strSplitAt lineFeed (b ++ chunk) with ⟨l, _ | rest⟩
      · obtain ⟨-, hlf'⟩ := strSplitAt_none.mp hsplit
        have hround := (hpass true httpres buf).trans (takeLine_open hfirst hlf')
        by_cases hc : chunk = []
        · obtain ⟨rfl, hwhy⟩ := hidle hc
          subst hc
          rw [List.append_nil] at hsome hround
          refine .inr ⟨hstuck hsome ?_, fun r hreturns => ?_⟩
          · rcases hwhy with ⟨hfull, -⟩ | ⟨hs, -⟩
            · exact List.take_left' (by omega)
            · have hnil : sk'.stream = [] := by simp [Socket.stream, hs]
              rw [hnil, List.append_nil, List.take_of_length_le fits]
          · exact absurd ⟨r, hreturns⟩ (Loops.not_terminates_of_fixed hround)
        · have hlen := congrArg List.length hstream
          have hpos := List.length_pos_iff.mpr hc
          simp only [List.length_append] at hlen
          exact (ih _ (by omega) hfits hlf' hfirst rfl).receive fits hr hlf' hround
      · exact missedOrReported_line fits hlf hne hr hfirst hsplit

/-! The request -/

variable {config : Config} {env : RequestEnv} {httpResponse : StructString} {masterUrl : Bytes}
  {connection : Option Socket} {ifmodifiedsince : Int}

theorem mainRequestConfig_notModified {http : HttpResult} {request : RequestResult}
    (hrequest : mainRequestConfig config { env with httpGet := fun _ => http } ifmodifiedsince
      httpResponse = some request) :
    request.retval = 0 ↔ http.retval = httpEsrverr ∧ http.httpres = 304 := by
  unfold mainRequestConfig at hrequest
  dsimp only at hrequest
  split at hrequest
  · split at hrequest
    · rename_i hserver
      obtain rfl := Option.some.inj hrequest
      by_cases h304 : http.httpres = 304 <;> simp [hserver, h304]
    · rename_i hother
      split at hrequest
      · cases hrequest
      · obtain rfl := Option.some.inj hrequest
        simp [hother]
  · rename_i hok
    obtain rfl := Option.some.inj hrequest
    have hopened := openArchive_retval config { env with httpGet := fun _ => http } http.archive
      httpResponse
    have hserver : http.retval ≠ httpEsrverr := by
      rw [not_not.mp hok]
      decide
    rcases hopened with ⟨hretval, -⟩ | ⟨hretval, -⟩ <;> simp [hretval, hserver]

theorem httpGet_connected {sk : Socket} {fuel : Nat} {url : Bytes}
    (hurl : (httpParseurl url stringInit 0 stringInit).retval = httpEok) :
    httpGet fuel url (some sk) httpres =
      (httprecv fuel sk httpres []).map fun r => ⟨r.retval, r.httpres, r.buf⟩ := by
  simp [httpGet, hurl]

theorem needsStatus304_connected_iff {sk : Socket}
    (hurl : (httpParseurl (httpurl masterUrl config) stringInit 0 stringInit).retval = httpEok) :
    NeedsStatus304 config env masterUrl (some sk) httpres ifmodifiedsince httpResponse ↔
      (httpres = 304 → ¬ StatusMissed 0 sk.cuts sk.ending sk.stream) := by
  have hcases : StatusMissed 0 sk.cuts sk.ending sk.stream ∧
        Missed (start sk httpres []) httpres [] ∨
      ¬ StatusMissed 0 sk.cuts sk.ending sk.stream ∧ Reported (start sk httpres []) :=
    missed_or_reported (b := []) (Nat.zero_le _) (by simp) rfl
  constructor
  · rintro hneeds rfl hmissed
    obtain ⟨⟨fuel, hreturns⟩, hnone⟩ :=
      (hcases.resolve_right fun h => h.1 hmissed).2
    obtain ⟨sk', hsame, hreads⟩ := hneeds fuel ⟨httpEsrverr, 304, []⟩
      ⟨0, stringEnsurez httpResponse, ifmodifiedsince, none⟩
      (by rw [httpGet_connected hurl, httprecv, hreturns]; rfl) rfl rfl
    obtain rfl := Option.some.inj hsame
    exact hnone 304 hreads
  · intro hcond fuel http request hhttp hrequest hzero
    obtain ⟨hretval, h304⟩ := (mainRequestConfig_notModified hrequest).mp hzero
    rw [httpGet_connected hurl, Option.map_eq_some_iff] at hhttp
    obtain ⟨r, hr, rfl⟩ := hhttp
    have hreturns : Loops.Returns httprecvPass (start sk httpres []) r := ⟨fuel, hr⟩
    refine ⟨sk, rfl, ?_⟩
    rcases hcases with ⟨hmissed, hreturns', -⟩ | ⟨-, hreported⟩
    · obtain rfl := hreturns.unique hreturns'
      exact absurd hmissed (hcond h304)
    · exact h304 ▸ hreported r hreturns hretval

/-- Without a connection http_get does not fail with a server error. -/
theorem needsStatus304_unconnected
    (h : (httpParseurl (httpurl masterUrl config) stringInit 0 stringInit).retval ≠ httpEok ∨
      connection = none) :
    NeedsStatus304 config env masterUrl connection httpres ifmodifiedsince httpResponse := by
  intro fuel http request hhttp hrequest hzero
  have hretval := ((mainRequestConfig_notModified hrequest).mp hzero).1
  by_cases hurl : (httpParseurl (httpurl masterUrl config) stringInit 0 stringInit).retval = httpEok
  · obtain rfl := h.resolve_left (not_not.mpr hurl)
    simp only [httpGet, hurl, ne_eq, not_true_eq_false, if_false, Option.some.injEq] at hhttp
    have hne : httpEneterr ≠ httpEsrverr := by decide
    rw [← hhttp] at hretval
    exact absurd hretval hne
  · simp only [httpGet, ne_eq, hurl, not_false_eq_true, if_true, Option.some.injEq] at hhttp
    rw [← hhttp] at hretval
    rcases httpParseurl_retval with hok | hinvalid
    · exact absurd hok hurl
    · exact absurd (hinvalid.symm.trans hretval) (by decide)

/-- The server closes the connection without an answer, and the memory of the local
variable happens to hold 304. -/
def silentServer : Socket where
  segments := []
  nonempty := by simp
  ending := .eof

end ChaosVpn.NotModified
