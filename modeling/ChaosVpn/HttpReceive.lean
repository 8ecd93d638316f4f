import ChaosVpn.Library.Loops
import ChaosVpn.CStrings

/-! The receiving half of httplib/http_get.c: `httprecv` with its header and body
loop, and `handle_header`. A socket holds the pieces in which the stream will
arrive; a recv() never reaches past the end of a piece, and splits a piece that
does not fit into the room it is given. Memory is taken to suffice. -/

namespace ChaosVpn.HttpReceive
open CStrings

def httpEok : Nat := 0
def httpEneterr : Nat := 3
def httpEsrverr : Nat := 4
def httpEinvurl : Nat := 5

def bufsize : Nat := 8192

/-- What recv() answers once the stream is used up: 0 for ever, or a negative value. -/
inductive StreamEnd
  | eof
  | error
  deriving DecidableEq

structure Socket where
  segments : List Bytes
  nonempty : ∀ segment ∈ segments, segment ≠ []
  ending : StreamEnd

def Socket.stream (sk : Socket) : Bytes := sk.segments.flatten

def Socket.cuts (sk : Socket) : List Nat := sk.segments.map List.length

/-- A negative result of recv() is `none`. -/
def recv (sk : Socket) (room : Nat) : Option Bytes × Socket :=
  match hs : sk.segments with
  | [] => (if sk.ending = .eof then some [] else none, sk)
  | segment :: rest =>
    if h : room < segment.length then
      (some (segment.take room), ⟨segment.drop room :: rest, by
        have hrest := sk.nonempty
        simp only [hs, List.mem_cons, forall_eq_or_imp] at hrest ⊢
        exact ⟨by simp only [ne_eq, List.drop_eq_nil_iff]; omega, hrest.2⟩, sk.ending⟩)
    else
      (some segment, ⟨rest, fun x hx => sk.nonempty x (by simp [hs, hx]), sk.ending⟩)

structure Received where
  retval : Nat
  httpres : Int
  buf : Bytes
  deriving DecidableEq

/-- The status code of the first line, or `none` where handle_header fails. atoi()
starts at the first blank and is stopped at the second. -/
def handleHeader (line : Bytes) : Option Int :=
  if line.length < 4 || line.contains 0 || line.take 4 != ascii "HTTP" then none
  else
    match strSplitAt space line with
    | (_, none) => none
    | (_, some p) =>
      match strSplitAt space p with
      | (_, none) => none
      | (code, some _) => some (atoi (space :: code))

def isLineEnd (c : UInt8) : Bool := c = lineFeed || c = carriageReturn

def startsWithLineEnd (b : Bytes) : Bool := b.head?.any isLineEnd

/-- `--oneline.length` when the line ends in a carriage return. -/
def chopReturn (line : Bytes) : Bytes :=
  if line.getLast? = some carriageReturn then line.dropLast else line

/-- The blank line is looked for only when more than two bytes are buffered. -/
def skipBlankLine : Bytes → Bytes
  | x :: y :: z :: rest =>
    if isLineEnd x then if isLineEnd y then z :: rest else y :: z :: rest
    else x :: y :: z :: rest
  | b => b

inductive RecvState
  | header (b : Bytes) (sk : Socket) (isfirsthdr : Bool) (httpres : Int) (buf : Bytes)
  | body (sk : Socket) (httpres : Int) (buf : Bytes)

def finished (b : Bytes) (sk : Socket) (isfirsthdr : Bool) (httpres : Int) (buf : Bytes) :
    RecvState ⊕ Received :=
  if isfirsthdr then .inr ⟨httpEsrverr, httpres, buf⟩
  else .inl (.body sk httpres (buf ++ skipBlankLine b))

/-- The status after one more header line; only the first one is looked at. -/
def statusOf (isfirsthdr : Bool) (httpres : Int) (line : Bytes) : Option Int :=
  if isfirsthdr then handleHeader (chopReturn line) else some httpres

def afterHeader (rest : Bytes) (sk : Socket) (httpres : Int) (buf : Bytes) :
    Option Int → RecvState ⊕ Received
  | none => .inr ⟨httpEsrverr, httpres, buf⟩
  | some code => .inl (.header rest sk false code buf)

/-- The rest of a header pass, with the received bytes appended to `b`. At most one
line is taken, and a line feed that ends the buffered bytes is an error. -/
def takeLine (b : Bytes) (sk : Socket) (isfirsthdr : Bool) (httpres : Int) (buf : Bytes) :
    RecvState ⊕ Received :=
  if startsWithLineEnd b then finished b sk isfirsthdr httpres buf
  else
    match strSplitAt lineFeed b with
    | (_, none) => .inl (.header b sk isfirsthdr httpres buf)
    | (line, some rest) =>
      if rest.isEmpty then .inr ⟨httpEsrverr, httpres, buf⟩
      else afterHeader rest sk httpres buf (statusOf isfirsthdr httpres line)

/-- One round of the header loop or of the body loop. -/
def httprecvPass : RecvState → RecvState ⊕ Received
  | .header b sk isfirsthdr httpres buf =>
    match recv sk (bufsize - b.length) with
    | (none, _) => .inr ⟨httpEneterr, httpres, buf⟩
    | (some chunk, sk') =>
      if chunk.isEmpty && b.isEmpty then finished b sk' isfirsthdr httpres buf
      else takeLine (b ++ chunk) sk' isfirsthdr httpres buf
  | .body sk httpres buf =>
    match recv sk bufsize with
    | (none, _) => .inr ⟨httpEneterr, httpres, buf⟩
    | (some chunk, sk') =>
      if chunk.isEmpty then
        .inr ⟨if httpres = 200 then httpEok else httpEsrverr, httpres, buf⟩
      else .inl (.body sk' httpres (buf ++ chunk))

def start (sk : Socket) (httpres : Int) (buf : Bytes) : RecvState := .header [] sk true httpres buf

def httprecv (fuel : Nat) (sk : Socket) (httpres : Int) (buf : Bytes) : Option Received :=
  Loops.loop httprecvPass fuel (start sk httpres buf)

/-! What one recv() does -/

/-- Length of the buffered bytes and of the pieces to come after a recv() into the rest
of the buffer; `none` if it fails. -/
def arrive (ending : StreamEnd) (have' : Nat) : List Nat → Option (Nat × List Nat)
  | [] => if ending = .eof then some (have', []) else none
  | cut :: cuts =>
    if bufsize - have' < cut then some (bufsize, (cut - (bufsize - have')) :: cuts)
    else some (have' + cut, cuts)

theorem recv_nil {sk : Socket} (hs : sk.segments = []) (room : Nat) :
    recv sk room = (if sk.ending = .eof then some [] else none, sk) := by
  obtain ⟨segments, hne, ending⟩ := sk
  cases hs
  rfl

theorem recv_cons {sk : Socket} {segment : Bytes} {rest : List Bytes}
    (hs : sk.segments = segment :: rest) (room : Nat) :
    (recv sk room).1 = some (segment.take room) ∧ (recv sk room).2.ending = sk.ending ∧
      (recv sk room).2.segments =
        if room < segment.length then segment.drop room :: rest else rest := by
  obtain ⟨segments, hne, ending⟩ := sk
  cases hs
  by_cases h : room < segment.length
  · simp [recv, h]
  · simp [recv, h, List.take_of_length_le (Nat.le_of_not_lt h)]

theorem recv_none_iff {sk : Socket} {room : Nat} :
    (recv sk room).1 = none ↔ sk.segments = [] ∧ sk.ending = .error := by
  cases hs : sk.segments with
  | nil => cases he : sk.ending <;> simp [recv_nil hs, he]
  | cons segment rest =>
    simp [(recv_cons hs room).1]

theorem Socket.ext' {sk sk' : Socket} (hs : sk.segments = sk'.segments)
    (he : sk.ending = sk'.ending) : sk = sk' := by
  obtain ⟨segments, _, ending⟩ := sk
  obtain ⟨segments', _, ending'⟩ := sk'
  simp only at hs he
  subst hs he
  rfl

/-- A recv() moves bytes from the stream to the buffer. Nothing moves only when there
is no room, or at the end of the stream; then the socket stays as it is. -/
theorem recv_spec {sk sk' : Socket} {room : Nat} {chunk : Bytes}
    (h : recv sk room = (some chunk, sk')) :
    chunk ++ sk'.stream = sk.stream ∧ sk'.ending = sk.ending ∧ chunk.length ≤ room ∧
      (chunk = [] → sk' = sk ∧ (room = 0 ∧ sk.segments ≠ [] ∨
        sk.segments = [] ∧ sk.ending = .eof)) := by
  cases hs : sk.segments with
  | nil =>
    rw [recv_nil hs, Prod.mk.injEq] at h
    obtain ⟨h, rfl⟩ := h
    split at h
    · cases h
      simp_all
    · cases h
  | cons segment rest =>
    obtain ⟨hr, he, hsegs⟩ := recv_cons hs room
    rw [h] at hr he hsegs
    dsimp only at hr he hsegs
    obtain rfl := Option.some.inj hr
    have hne : segment ≠ [] := sk.nonempty segment (by simp [hs])
    refine ⟨?_, he, List.length_take_le room segment, ?_⟩
    · simp only [Socket.stream, hsegs, hs]
      split
      · simp [← List.append_assoc]
      · rw [List.take_of_length_le (by omega)]
        rfl
    · intro h
      have hroom : room = 0 := by simpa [hne] using h
      subst hroom
      have hpos : 0 < segment.length := List.length_pos_iff.mpr hne
      exact ⟨Socket.ext' (by simp [hsegs, hs, hpos]) he, by simp⟩

theorem arrive_eq {sk sk' : Socket} {b chunk : Bytes}
    (hb : b.length ≤ bufsize) (h : recv sk (bufsize - b.length) = (some chunk, sk')) :
    arrive sk.ending b.length sk.cuts = some ((b ++ chunk).length, sk'.cuts) := by
  cases hs : sk.segments with
  | nil =>
    rw [recv_nil hs, Prod.mk.injEq] at h
    obtain ⟨h, rfl⟩ := h
    split at h <;> simp_all [arrive, Socket.cuts]
  | cons segment rest =>
    obtain ⟨hr, -, hsegs⟩ := recv_cons hs (bufsize - b.length)
    rw [h] at hr hsegs
    dsimp only at hr hsegs
    obtain rfl := Option.some.inj hr
    simp only [Socket.cuts, hs, hsegs, List.map_cons, arrive, List.length_append,
      List.length_take]
    split
    · simp only [List.map_cons, List.length_drop, Option.some.injEq, Prod.mk.injEq, and_true]
      omega
    · simp only [Option.some.injEq, Prod.mk.injEq, and_true]
      omega

/-- A header pass with something left to read looks at the buffer after its recv(). -/
theorem pass_header {sk sk' : Socket} {b chunk : Bytes} (fits : b.length ≤ bufsize)
    (hr : recv sk (bufsize - b.length) = (some chunk, sk')) (hne : b ++ sk.stream ≠ []) :
    b ++ chunk ≠ [] ∧ b ++ chunk ++ sk'.stream = b ++ sk.stream ∧
      (b ++ chunk).length ≤ bufsize ∧ ∀ first httpres buf,
        httprecvPass (.header b sk first httpres buf) =
          takeLine (b ++ chunk) sk' first httpres buf := by
  obtain ⟨hstream, -, hlen, hidle⟩ := recv_spec hr
  have hsome : ¬ (chunk = [] ∧ b = []) := by
    rintro ⟨hc, rfl⟩
    rcases (hidle hc).2 with ⟨h0, -⟩ | ⟨hs, -⟩
    · exact absurd h0 (by decide)
    · exact hne (by simp [Socket.stream, hs])
  refine ⟨by simpa [and_comm] using hsome, by rw [List.append_assoc, hstream], ?_, ?_⟩
  · simp only [List.length_append]
    omega
  · intro first httpres buf
    simp [httprecvPass, hr, hsome]

theorem startsWithLineEnd_append {x : Bytes} (hx : x ≠ []) (y : Bytes) :
    startsWithLineEnd (x ++ y) = startsWithLineEnd x := by
  obtain ⟨c, cs, rfl⟩ := List.exists_cons_of_ne_nil hx
  rfl

/-! What a header pass does with the line at the front -/

/-- The text of a header line, without its line feed. -/
structure IsHeaderLine (l : Bytes) : Prop where
  nonempty : l ≠ []
  one_line : lineFeed ∉ l
  not_blank : l.head? ≠ some carriageReturn

theorem IsHeaderLine.not_lineEnd {l : Bytes} (h : IsHeaderLine l) (rest : Bytes) :
    startsWithLineEnd (l ++ rest) = false := by
  rw [startsWithLineEnd_append h.nonempty]
  obtain ⟨c, cs, rfl⟩ := List.exists_cons_of_ne_nil h.nonempty
  have h1 := h.one_line
  have h2 := h.not_blank
  simp_all [startsWithLineEnd, isLineEnd, eq_comm]

theorem takeLine_open {b : Bytes} {sk : Socket} {first : Bool} {httpres : Int} {buf : Bytes}
    (hstart : startsWithLineEnd b = false) (hlf : lineFeed ∉ b) :
    takeLine b sk first httpres buf = .inl (.header b sk first httpres buf) := by
  have hsplit := strSplitAt_none.mpr ⟨rfl, hlf⟩
  simp [takeLine, hstart, hsplit]

theorem takeLine_line {l rest : Bytes} {sk : Socket} {first : Bool} {httpres : Int}
    {buf : Bytes} (hl : IsHeaderLine l) :
    takeLine (l ++ lineFeed :: rest) sk first httpres buf =
      if rest.isEmpty then .inr ⟨httpEsrverr, httpres, buf⟩
      else afterHeader rest sk httpres buf (statusOf first httpres l) := by
  have hsplit : strSplitAt lineFeed (l ++ lineFeed :: rest) = (l, some rest) :=
    strSplitAt_some.mpr ⟨rfl, hl.one_line⟩
  simp [takeLine, hl.not_lineEnd, hsplit]

end ChaosVpn.HttpReceive
