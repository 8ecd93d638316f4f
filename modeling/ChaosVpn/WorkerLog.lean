import Mathlib.Data.List.Count
import ChaosVpn.Library.Loops
import ChaosVpn.Library.Runs
import ChaosVpn.Library.TextLines
import ChaosVpn.CStrings

/-! How the worker of src/main.c logs what tincd writes to its stderr. The bytes go
through a pipe, through the buffer of a stdio stream that read() fills from the pipe,
and through `stderr_buffer`; select() sees the pipe only. The calls of fcntl() in
daemon_start name no command, so that the pipe blocks. One tincd is followed, and not
beyond the end of its output. -/

namespace ChaosVpn.WorkerLog
open CStrings Loops Runs TextLines

def stderrBufferSize : Nat := 1024

/-- The worker waits in select(), or it is in fgets() with room for so many bytes and has
got some of them. -/
inductive Control
  | select
  | fgets (room : Nat) (got : Bytes)
  deriving DecidableEq

def Control.got : Control → Bytes
  | .select => []
  | .fgets _ got => got

/-- `stderrBuffer` is the text in front of its NUL; `written` and `logged` are everything
that tincd wrote and the worker logged. -/
structure State where
  written : Bytes
  pipe : Bytes
  stdio : Bytes
  stderrBuffer : Bytes
  logged : List Bytes
  control : Control
  deriving DecidableEq

def start : State := ⟨[], [], [], [], [], .select⟩

/-- tincd writes; select() finds the pipe readable; in fgets() a read() brings so many bytes
of the pipe, or bytes of the stdio buffer are copied; fgets() returns. -/
inductive Action
  | write (bytes : Bytes)
  | select
  | read (count : Nat)
  | copy
  | log
  deriving DecidableEq

def fgetsDone (room : Nat) (got : Bytes) : Prop := got.getLast? = some lineFeed ∨ got.length = room

instance (room : Nat) (got : Bytes) : Decidable (fgetsDone room got) := instDecidableOr

/-- What fgets() takes out of the stdio buffer at once. -/
def fgetsCopy (room : Nat) (stdio : Bytes) : Bytes :=
  match strSplitAt lineFeed (stdio.take room) with
  | (front, none) => front
  | (line, some _) => line ++ [lineFeed]

/-- One pass of the loop over the newlines in `stderr_buffer`. The NUL behind the text
counts for `tocopy`, which is never 0. -/
def logPass (s : Bytes × List Bytes) : (Bytes × List Bytes) ⊕ (Bytes × List Bytes) :=
  match strSplitAt lineFeed s.1 with
  | (_, none) => .inr s
  | (line, some rest) => .inl (rest, s.2 ++ [line])

def step (st : State) : Action → Option (Unit × State)
  | .write bytes => some ((), { st with written := st.written ++ bytes, pipe := st.pipe ++ bytes })
  | .select =>
    if st.control = .select ∧ st.pipe ≠ [] then
      -- fgets() keeps a byte of the size it is given for the NUL
      some ((), { st with
        control := .fgets (stderrBufferSize - st.stderrBuffer.length - 1 - 1) [] })
    else none
  | .read count =>
    match st.control with
    | .select => none
    | .fgets room got =>
      if ¬ fgetsDone room got ∧ st.stdio = [] ∧ 0 < count ∧ count ≤ st.pipe.length then
        some ((), { st with stdio := st.pipe.take count, pipe := st.pipe.drop count })
      else none
  | .copy =>
    match st.control with
    | .select => none
    | .fgets room got =>
      if ¬ fgetsDone room got ∧ st.stdio ≠ [] then
        let bytes := fgetsCopy (room - got.length) st.stdio
        some ((), { st with
          stdio := st.stdio.drop bytes.length, control := .fgets room (got ++ bytes) })
      else none
  | .log =>
    match st.control with
    | .select => none
    | .fgets room got =>
      if fgetsDone room got then
        let text := cstr (st.stderrBuffer ++ got)
        (loop logPass (text.length + 1) (text, st.logged)).map fun (rest, logged) =>
          ((), { st with stderrBuffer := rest, logged := logged, control := .select })
      else none

/-! What a step does -/

theorem loop_logPass {fuel : Nat} {text : Bytes} (logged : List Bytes) (h : text.length < fuel) :
    loop logPass fuel (text, logged) =
      some (openLine lineFeed text, logged ++ completeLines lineFeed text) := by
  induction fuel generalizing text logged with
  | zero => exact absurd h (Nat.not_lt_zero _)
  | succ fuel ih =>
    by_cases hmem : lineFeed ∈ text
    · obtain ⟨line, rest, rfl, hline⟩ := List.eq_append_cons_of_mem hmem
      have hpass : logPass (line ++ lineFeed :: rest, logged) = .inl (rest, logged ++ [line]) := by
        simp only [logPass, strSplitAt_some.mpr ⟨rfl, hline⟩]
      have hrest : rest.length < fuel := by simp at h; omega
      simp only [loop, hpass]
      rw [ih (logged ++ [line]) hrest, openLine_cons hline, completeLines_cons hline,
        List.append_assoc, List.singleton_append]
    · have hpass : logPass (text, logged) = .inr (text, logged) := by
        simp only [logPass, strSplitAt_none.mpr ⟨rfl, hmem⟩]
      simp only [loop, hpass]
      rw [openLine_of_not_mem hmem, completeLines_of_not_mem hmem, List.append_nil]

theorem fgetsCopy_spec (room : Nat) (stdio : Bytes) :
    stdio = fgetsCopy room stdio ++ stdio.drop (fgetsCopy room stdio).length ∧
      (fgetsCopy room stdio).length ≤ room ∧
      (lineFeed ∉ fgetsCopy room stdio ∨
        ∃ line, fgetsCopy room stdio = line ++ [lineFeed] ∧ lineFeed ∉ line) := by
  have hroom : (stdio.take room).length ≤ room := List.length_take_le _ _
  have hfront {front : Bytes} (h : front <+: stdio.take room) :
      stdio = front ++ stdio.drop front.length ∧ front.length ≤ room := by
    obtain ⟨rest, hrest⟩ := h.trans (List.take_prefix room stdio)
    exact ⟨by simp [← hrest], h.length_le.trans hroom⟩
  cases hsplit : strSplitAt lineFeed (stdio.take room) with
  | mk line found =>
    cases found with
    | none =>
      obtain ⟨rfl, hline⟩ := strSplitAt_none.mp hsplit
      have hcopy : fgetsCopy room stdio = stdio.take room := by simp only [fgetsCopy, hsplit]
      rw [hcopy]
      obtain ⟨hbytes, hlength⟩ := hfront (List.prefix_refl _)
      exact ⟨hbytes, hlength, .inl hline⟩
    | some rest =>
      obtain ⟨htake, hline⟩ := strSplitAt_some.mp hsplit
      have hcopy : fgetsCopy room stdio = line ++ [lineFeed] := by simp only [fgetsCopy, hsplit]
      rw [hcopy]
      have hprefix : line ++ [lineFeed] <+: stdio.take room := ⟨rest, by simp [htake]⟩
      obtain ⟨hbytes, hlength⟩ := hfront hprefix
      exact ⟨hbytes, hlength, .inr ⟨line, rfl, hline⟩⟩

/-- The steps one by one, with what each of them takes for granted. -/
inductive Step (st : State) : Action → State → Prop
  | write (bytes : Bytes) :
      Step st (.write bytes)
        { st with written := st.written ++ bytes, pipe := st.pipe ++ bytes }
  | select (hcontrol : st.control = .select) (hpipe : st.pipe ≠ []) :
      Step st .select
        { st with control := .fgets (stderrBufferSize - st.stderrBuffer.length - 1 - 1) [] }
  | read {room : Nat} {got : Bytes} (count : Nat) (hcontrol : st.control = .fgets room got)
      (hdone : ¬ fgetsDone room got) (hstdio : st.stdio = []) (hpos : 0 < count)
      (hle : count ≤ st.pipe.length) :
      Step st (.read count)
        { st with stdio := st.pipe.take count, pipe := st.pipe.drop count }
  | copy {room : Nat} {got bytes : Bytes} (hcontrol : st.control = .fgets room got)
      (hdone : ¬ fgetsDone room got) (hstdio : st.stdio ≠ [])
      (hbytes : bytes = fgetsCopy (room - got.length) st.stdio) :
      Step st .copy
        { st with stdio := st.stdio.drop bytes.length, control := .fgets room (got ++ bytes) }
  | log {room : Nat} {got text : Bytes} (hcontrol : st.control = .fgets room got)
      (hdone : fgetsDone room got) (htext : text = cstr (st.stderrBuffer ++ got)) :
      Step st .log
        { st with
          stderrBuffer := openLine lineFeed text
          logged := st.logged ++ completeLines lineFeed text
          control := .select }

theorem step_iff {st st' : State} {act : Action} :
    step st act = some ((), st') ↔ Step st act st' := by
  constructor
  · intro h
    cases act with
    | write bytes =>
      cases h
      exact .write bytes
    | select =>
      rw [step] at h
      split at h
      case isTrue hready =>
        cases h
        exact .select hready.1 hready.2
      case isFalse => cases h
    | read count =>
      rw [step] at h
      split at h
      · cases h
      · rename_i room got hcontrol
        split at h
        case isTrue hready =>
          cases h
          exact .read count hcontrol hready.1 hready.2.1 hready.2.2.1 hready.2.2.2
        case isFalse => cases h
    | copy =>
      rw [step] at h
      split at h
      · cases h
      · rename_i room got hcontrol
        split at h
        case isTrue hready =>
          cases h
          exact .copy hcontrol hready.1 hready.2 rfl
        case isFalse => cases h
    | log =>
      rw [step] at h
      split at h
      · cases h
      · rename_i room got hcontrol
        split at h
        case isTrue hdone =>
          simp only [loop_logPass _ (Nat.lt_add_one _)] at h
          cases h
          exact .log hcontrol hdone rfl
        case isFalse => cases h
  · intro h
    cases h with
    | write bytes => rfl
    | select hcontrol hpipe => simp [step, hcontrol, hpipe]
    | read count hcontrol hdone hstdio hpos hle =>
      simp [step, hcontrol, hdone, hstdio, hpos, hle]
    | copy hcontrol hdone hstdio hbytes =>
      subst hbytes
      simp [step, hcontrol, hdone, hstdio]
    | log hcontrol hdone htext =>
      subst htext
      simp [step, hcontrol, hdone, loop_logPass]

/-- tincd writes no NUL. -/
def NulFree : Action → Prop
  | .write bytes => (0 : UInt8) ∉ bytes
  | _ => True

instance : DecidablePred NulFree
  | .write bytes => inferInstanceAs (Decidable ((0 : UInt8) ∉ bytes))
  | .select | .read _ | .copy | .log => isTrue trivial

/-- Each pass takes a byte out of a stream that was found readable, and when the worker waits
for more, it has logged each complete line. -/
def GetsThrough (st : State) : Prop :=
  (∀ room got, st.control = .fgets room got → fgetsDone room got → got ≠ []) ∧
    (st.control = .select → st.pipe = [] → st.logged = completeLines lineFeed st.written)

/-- What is asked of a step: no line that tincd writes is longer than 1021 bytes, and a
read() that empties the pipe brings one newline at most. -/
def Meets (st : State) : Action → Prop
  | .write bytes => ∀ line ∈ (st.written ++ bytes).splitOn lineFeed, line.length ≤ 1021
  | .read count => count = st.pipe.length → st.pipe.count lineFeed ≤ 1
  | _ => True

instance (st : State) : DecidablePred (Meets st)
  | .write bytes => inferInstanceAs
      (Decidable (∀ line ∈ (st.written ++ bytes).splitOn lineFeed, line.length ≤ 1021))
  | .read count => inferInstanceAs
      (Decidable (count = st.pipe.length → st.pipe.count lineFeed ≤ 1))
  | .select | .copy | .log => isTrue trivial

variable {st st' : State} {act : Action} {t : List (Call State Action Unit)}

/-! Nothing is lost on the way, whatever tincd writes -/

/-- Every byte is logged or in one of the buffers, in the order of writing, and
`stderr_buffer` leaves fgets() the room for its NUL. -/
structure Kept (st : State) : Prop where
  bytes : st.written = st.logged.flatMap (· ++ [lineFeed]) ++
    (st.stderrBuffer ++ (st.control.got ++ (st.stdio ++ st.pipe)))
  lines : ∀ line ∈ st.logged, lineFeed ∉ line
  leftover : lineFeed ∉ st.stderrBuffer
  plain : (0 : UInt8) ∉ st.written
  fits : st.stderrBuffer.length ≤ 1022
  room : ∀ room got, st.control = .fgets room got →
    room + st.stderrBuffer.length = 1022 ∧ got.length ≤ room

theorem kept_start : Kept start where
  bytes := rfl
  lines := by simp [start]
  leftover := by simp [start]
  plain := by simp [start]
  fits := by simp [start]
  room := by simp [start]

theorem Kept.cstr_text (h : Kept st) {room : Nat} {got : Bytes}
    (hcontrol : st.control = .fgets room got) :
    cstr (st.stderrBuffer ++ got) = st.stderrBuffer ++ got := by
  refine cstr_eq fun hmem => h.plain ?_
  rw [h.bytes, hcontrol, Control.got]
  rcases List.mem_append.mp hmem with hmem | hmem <;> simp [hmem]

theorem Kept.step (hkept : Kept st) (hnul : NulFree act) (h : Step st act st') : Kept st' := by
  obtain ⟨hbytes, hlines, hleftover, hplain, hfits, hroom⟩ := id hkept
  cases h with
  | write bytes =>
    refine ⟨by simp [hbytes], hlines, hleftover, ?_, hfits, hroom⟩
    exact fun hmem => (List.mem_append.mp hmem).elim hplain hnul
  | select hcontrol hpipe =>
    refine ⟨by simp [hbytes, hcontrol, Control.got], hlines, hleftover, hplain, hfits, ?_⟩
    rintro room got ⟨⟩
    exact ⟨by simp only [stderrBufferSize]; omega, Nat.zero_le _⟩
  | read count hcontrol hdone hstdio hpos hle =>
    exact ⟨by simp [hbytes, hstdio], hlines, hleftover, hplain, hfits, hroom⟩
  | @copy room got bytes hcontrol hdone hstdio hcopy =>
    obtain ⟨hsplit, hlength, -⟩ := fgetsCopy_spec (room - got.length) st.stdio
    rw [← hcopy] at hsplit hlength
    refine ⟨?_, hlines, hleftover, hplain, hfits, ?_⟩
    · rw [hbytes, hcontrol, Control.got, Control.got, List.append_assoc got,
        ← List.append_assoc bytes, ← hsplit]
    · rintro room' got' ⟨⟩
      obtain ⟨hsum, hle⟩ := hroom room got hcontrol
      exact ⟨hsum, by rw [List.length_append]; omega⟩
  | @log room got text hcontrol hdone htext =>
    rw [hcontrol, Control.got] at hbytes
    rw [hkept.cstr_text hcontrol] at htext
    have hlength : text.length ≤ 1022 := by
      obtain ⟨hsum, hle⟩ := hroom room got hcontrol
      rw [htext, List.length_append]
      omega
    have hwhole : (completeLines lineFeed text).flatMap (· ++ [lineFeed]) ++
        openLine lineFeed text = text := lines_append_openLine text
    refine ⟨?_, ?_, not_mem_openLine text, hplain, ?_, by rintro room' got' ⟨⟩⟩
    · rw [hbytes, Control.got, ← List.append_assoc st.stderrBuffer, ← htext, List.nil_append,
        List.flatMap_append, List.append_assoc, ← List.append_assoc _ (openLine lineFeed text),
        hwhole]
    · intro line hline
      rcases List.mem_append.mp hline with hline | hline
      · exact hlines line hline
      · exact mem_completeLines hline
    · have hsum := congrArg List.length hwhole
      rw [List.length_append] at hsum
      show (openLine lineFeed text).length ≤ 1022
      omega

theorem kept (run : Run step start t st) (hnul : ∀ c ∈ t, NulFree c.input) : Kept st := by
  refine run.invariant (fun t st => (∀ c ∈ t, NulFree c.input) → Kept st) (fun _ => kept_start)
    (fun t st act o st' _ ih hstep hnul => ?_) hnul
  exact (ih fun c hc => hnul c (List.mem_append_left _ hc)).step
    (hnul ⟨st, act, o, st'⟩ (by simp)) (step_iff.mp hstep)

/-- Each line is logged once at most, in order and unchanged. -/
theorem logged_prefix (run : Run step start t st) (hnul : ∀ c ∈ t, NulFree c.input) :
    st.logged <+: completeLines lineFeed st.written := by
  have hkept := kept run hnul
  rw [hkept.bytes, completeLines_append hkept.lines]
  exact List.prefix_append _ _

/-! When the worker keeps up with tincd -/

/-- Each pass logs a whole line, and a complete line stays in the stdio buffer only while the
pipe is readable. -/
structure CaughtUp (st : State) : Prop where
  short : ∀ line ∈ st.written.splitOn lineFeed, line.length ≤ 1021
  empty : st.stderrBuffer = []
  waiting : st.control = .select → st.pipe = [] → lineFeed ∉ st.stdio
  reading : ∀ room got, st.control = .fgets room got →
    (lineFeed ∉ got ∧ (st.pipe = [] → st.stdio.count lineFeed ≤ 1)) ∨
      ∃ line, got = line ++ [lineFeed] ∧ lineFeed ∉ line ∧ (st.pipe = [] → lineFeed ∉ st.stdio)

theorem caughtUp_start : CaughtUp start where
  short := by decide
  empty := rfl
  waiting := by simp [start]
  reading := by simp [start]

/-- What comes next without a newline leaves fgets() room for one. -/
theorem CaughtUp.front_short (h : CaughtUp st) (hkept : Kept st) {room : Nat}
    {got front rest : Bytes} (hcontrol : st.control = .fgets room got)
    (hsplit : got ++ (st.stdio ++ st.pipe) = front ++ rest) (hfront : lineFeed ∉ front) :
    front.length < room := by
  obtain ⟨line, hline, hle⟩ := exists_line_append hfront rest
  have hmem : line ∈ st.written.splitOn lineFeed := by
    rw [hkept.bytes, splitOn_lines_append hkept.lines, h.empty, hcontrol, List.nil_append,
      Control.got, hsplit]
    exact List.mem_append_right _ hline
  have hshort := h.short line hmem
  have hroom := (hkept.room room got hcontrol).1
  rw [h.empty, List.length_nil] at hroom
  omega

/-- fgets() returns with a line, never because its room is used up. -/
theorem CaughtUp.line_of_done (h : CaughtUp st) (hkept : Kept st) {room : Nat} {got : Bytes}
    (hcontrol : st.control = .fgets room got) (hdone : fgetsDone room got) :
    ∃ line, got = line ++ [lineFeed] ∧ lineFeed ∉ line ∧ (st.pipe = [] → lineFeed ∉ st.stdio) := by
  refine (h.reading room got hcontrol).resolve_left fun ⟨hgot, _⟩ => ?_
  rcases hdone with hlast | hfull
  · exact hgot (List.mem_of_getLast? hlast)
  · exact Nat.ne_of_lt (h.front_short hkept hcontrol rfl hgot) hfull

theorem CaughtUp.open_of_not_done (h : CaughtUp st) {room : Nat} {got : Bytes}
    (hcontrol : st.control = .fgets room got) (hdone : ¬ fgetsDone room got) :
    lineFeed ∉ got ∧ (st.pipe = [] → st.stdio.count lineFeed ≤ 1) := by
  refine (h.reading room got hcontrol).resolve_right fun ⟨line, hline, _⟩ => hdone (.inl ?_)
  rw [hline, List.getLast?_append, List.getLast?_singleton, Option.some_or]

theorem CaughtUp.step (hcaught : CaughtUp st) (hkept : Kept st) (hmeets : Meets st act)
    (h : Step st act st') : CaughtUp st' := by
  obtain ⟨hshort, hempty, hwaiting, hreading⟩ := id hcaught
  cases h with
  | write bytes =>
    have hpipe : st.pipe ++ bytes = [] → st.pipe = [] := fun h => (List.append_eq_nil_iff.mp h).1
    refine ⟨hmeets, hempty, fun hcontrol h => hwaiting hcontrol (hpipe h), ?_⟩
    intro room got hcontrol
    rcases hreading room got hcontrol with ⟨hgot, hcount⟩ | ⟨line, hline, hfree, hstdio⟩
    · exact .inl ⟨hgot, fun h => hcount (hpipe h)⟩
    · exact .inr ⟨line, hline, hfree, fun h => hstdio (hpipe h)⟩
  | select hcontrol hpipe =>
    refine ⟨hshort, hempty, nofun, ?_⟩
    rintro room got ⟨⟩
    exact .inl ⟨List.not_mem_nil, fun h => absurd h hpipe⟩
  | @read room got count hcontrol hdone hstdio hpos hle =>
    obtain ⟨hgot, -⟩ := hcaught.open_of_not_done hcontrol hdone
    refine ⟨hshort, hempty, fun hselect => by simp [hcontrol] at hselect, ?_⟩
    intro room' got' hcontrol'
    cases hcontrol.symm.trans hcontrol'
    refine .inl ⟨hgot, fun hdrained => ?_⟩
    have hall : count = st.pipe.length := Nat.le_antisymm hle (List.drop_eq_nil_iff.mp hdrained)
    show (st.pipe.take count).count lineFeed ≤ 1
    rw [hall, List.take_length]
    exact hmeets hall
  | @copy room got bytes hcontrol hdone hstdio hcopy =>
    obtain ⟨hgot, hcount⟩ := hcaught.open_of_not_done hcontrol hdone
    obtain ⟨hsplit, -, hbytes⟩ := fgetsCopy_spec (room - got.length) st.stdio
    rw [← hcopy] at hsplit hbytes
    have hsum : st.stdio.count lineFeed =
        bytes.count lineFeed + (st.stdio.drop bytes.length).count lineFeed := by
      rw [← List.count_append, ← hsplit]
    refine ⟨hshort, hempty, nofun, ?_⟩
    rintro room' got' ⟨⟩
    rcases hbytes with hfree | ⟨line, hline, hfree⟩
    · refine .inl ⟨by simp [hgot, hfree], fun hdrained => ?_⟩
      have hone := hcount hdrained
      show (st.stdio.drop bytes.length).count lineFeed ≤ 1
      omega
    · refine .inr ⟨got ++ line, by rw [hline, List.append_assoc], by simp [hgot, hfree], ?_⟩
      intro hdrained
      have hone := hcount hdrained
      have hbytes : bytes.count lineFeed = 1 := by
        rw [hline, List.count_append, List.count_eq_zero.mpr hfree, List.count_singleton_self]
      show lineFeed ∉ st.stdio.drop bytes.length
      exact List.count_eq_zero.mp (by omega)
  | @log room got text hcontrol hdone htext =>
    obtain ⟨line, hgot, hfree, hstdio⟩ := hcaught.line_of_done hkept hcontrol hdone
    rw [hkept.cstr_text hcontrol, hempty, List.nil_append, hgot] at htext
    refine ⟨hshort, ?_, fun _ => hstdio, nofun⟩
    show openLine lineFeed text = []
    rw [htext, openLine_cons hfree, openLine_of_not_mem List.not_mem_nil]

theorem caughtUp (run : Run step start t st) (hnul : ∀ c ∈ t, NulFree c.input)
    (hmeets : ∀ c ∈ t, Meets c.pre c.input) : CaughtUp st := by
  refine run.invariant (fun t st => (∀ c ∈ t, NulFree c.input) → (∀ c ∈ t, Meets c.pre c.input) →
    CaughtUp st) (fun _ _ => caughtUp_start) (fun t st act o st' run ih hstep hnul hmeets => ?_)
    hnul hmeets
  have hnul' : ∀ c ∈ t, NulFree c.input := fun c hc => hnul c (List.mem_append_left _ hc)
  have hmeets' : ∀ c ∈ t, Meets c.pre c.input := fun c hc => hmeets c (List.mem_append_left _ hc)
  exact (ih hnul' hmeets').step (kept run hnul') (hmeets ⟨st, act, o, st'⟩ (by simp))
    (step_iff.mp hstep)

theorem fgetsCopy_line {room : Nat} {line : Bytes} (hline : lineFeed ∉ line)
    (hroom : line.length < room) (rest : Bytes) :
    fgetsCopy room (line ++ lineFeed :: rest) = line ++ [lineFeed] := by
  obtain ⟨more, rfl⟩ := Nat.exists_eq_add_of_lt hroom
  have htake : (line ++ lineFeed :: rest).take (line.length + more + 1) =
      line ++ lineFeed :: rest.take more := by
    rw [Nat.add_assoc, List.take_length_add_append, List.take_succ_cons]
  simp only [fgetsCopy, strSplitAt_some.mpr ⟨htake, hline⟩]

/-- Where a read() that empties the pipe brings two lines or more, the worker logs one of them
and waits. -/
theorem CaughtUp.read_leaves_line {count : Nat} (hcaught : CaughtUp st) (hkept : Kept st)
    (h : Step st (.read count) st') (hmeets : ¬ Meets st (.read count)) :
    ∃ st₁ st₂, Step st' .copy st₁ ∧ Step st₁ .log st₂ ∧ ¬ GetsThrough st₂ := by
  obtain ⟨rfl, hcount⟩ : count = st.pipe.length ∧ ¬ st.pipe.count lineFeed ≤ 1 :=
    Classical.not_imp.mp hmeets
  have hread := h
  cases h with
  | @read room got _ hcontrol hdone hstdio hpos hle =>
    obtain ⟨hgot, -⟩ := hcaught.open_of_not_done hcontrol hdone
    have hmem : lineFeed ∈ st.pipe := List.count_pos_iff.mp (by omega)
    obtain ⟨line, rest, hpipe, hline⟩ := List.eq_append_cons_of_mem hmem
    have hrest : lineFeed ∈ rest := by
      rw [hpipe, List.count_append, List.count_eq_zero.mpr hline, List.count_cons_self] at hcount
      exact List.count_pos_iff.mp (by omega)
    have hahead : got ++ (st.stdio ++ st.pipe) = (got ++ line) ++ lineFeed :: rest := by
      rw [hstdio, hpipe, List.nil_append, List.append_assoc]
    have hroom : (got ++ line).length < room :=
      hcaught.front_short hkept hcontrol hahead (by simp [hgot, hline])
    have hcopy : fgetsCopy (room - got.length) st.pipe = line ++ [lineFeed] := by
      rw [List.length_append] at hroom
      rw [hpipe]
      exact fgetsCopy_line hline (by omega) rest
    rw [List.take_length, List.drop_length] at hread ⊢
    have hcopied : Step { st with stdio := st.pipe, pipe := [] } .copy
        { st with
          stdio := st.pipe.drop (line ++ [lineFeed]).length
          pipe := []
          control := .fgets room (got ++ (line ++ [lineFeed])) } :=
      .copy hcontrol hdone (List.ne_nil_of_mem hmem) hcopy.symm
    have hreadFree : NulFree (.read st.pipe.length) := trivial
    have hcopyFree : NulFree .copy := trivial
    have htext := ((hkept.step hreadFree hread).step hcopyFree hcopied).cstr_text rfl
    have hnext : lineFeed ∉ got ++ line := by simp [hgot, hline]
    refine ⟨_, _, hcopied, .log rfl (.inl ?_) rfl, fun hthrough => ?_⟩
    · rw [← List.append_assoc, List.getLast?_append, List.getLast?_singleton, Option.some_or]
    · have hlogged := hthrough.2 rfl rfl
      dsimp only at hlogged htext
      rw [htext, hcaught.empty, hkept.bytes, completeLines_append hkept.lines, hcaught.empty,
        hcontrol, Control.got, List.nil_append, List.nil_append, hahead, ← List.append_assoc,
        completeLines_cons hnext, completeLines_cons hnext] at hlogged
      have hnone := (List.cons.inj (List.append_cancel_left hlogged)).2
      obtain ⟨second, others, hsecond, hfree⟩ := List.eq_append_cons_of_mem hrest
      rw [hsecond, completeLines_cons hfree, completeLines_of_not_mem List.not_mem_nil] at hnone
      cases hnone

/-- `stderr_buffer` is full, and fgets() has no room in it. -/
structure Full (st : State) : Prop where
  full : st.stderrBuffer.length = 1022
  leftover : lineFeed ∉ st.stderrBuffer
  plain : (0 : UInt8) ∉ st.stderrBuffer
  room : ∀ room got, st.control = .fgets room got → room = 0 ∧ got = []

theorem Full.step (hfull : Full st) (h : Step st act st') :
    Full st' ∧ st'.logged = st.logged ∧ st'.stdio = st.stdio ∧ st.pipe <+: st'.pipe := by
  obtain ⟨hlength, hleftover, hplain, hroom⟩ := id hfull
  have hdone {room : Nat} {got : Bytes} (hcontrol : st.control = .fgets room got) :
      fgetsDone room got := by
    obtain ⟨rfl, rfl⟩ := hroom room got hcontrol
    exact .inr rfl
  cases h with
  | write bytes =>
    exact ⟨⟨hlength, hleftover, hplain, hroom⟩, rfl, rfl, List.prefix_append _ _⟩
  | select hcontrol hpipe =>
    refine ⟨⟨hlength, hleftover, hplain, ?_⟩, rfl, rfl, List.prefix_refl _⟩
    rintro room got ⟨⟩
    exact ⟨by rw [hlength]; rfl, rfl⟩
  | read count hcontrol hnot _ _ _ => exact absurd (hdone hcontrol) hnot
  | copy hcontrol hnot _ _ => exact absurd (hdone hcontrol) hnot
  | @log room got text hcontrol _ htext =>
    obtain ⟨rfl, rfl⟩ := hroom room got hcontrol
    rw [List.append_nil, cstr_eq hplain] at htext
    have hlines : completeLines lineFeed text = [] := completeLines_of_not_mem (htext ▸ hleftover)
    have hopen : openLine lineFeed text = st.stderrBuffer := by
      rw [openLine_of_not_mem (htext ▸ hleftover), htext]
    rw [hlines, hopen, List.append_nil]
    exact ⟨⟨hlength, hleftover, hplain, nofun⟩, rfl, rfl, List.prefix_refl _⟩

/-- Once the buffer is full nothing is logged any more, and no byte leaves the pipe. -/
theorem Full.run (hfull : Full st) (run : Run WorkerLog.step st t st') :
    Full st' ∧ st'.logged = st.logged ∧ st'.stdio = st.stdio ∧ st.pipe <+: st'.pipe := by
  refine run.invariant (fun _ st' => Full st' ∧ st'.logged = st.logged ∧ st'.stdio = st.stdio ∧
    st.pipe <+: st'.pipe) ⟨hfull, rfl, rfl, List.prefix_refl _⟩ fun t s act _ s' _ ih hstep => ?_
  obtain ⟨hfull', hlogged, hstdio, hpipe⟩ := ih
  obtain ⟨hnext, hlogged', hstdio', hpipe'⟩ := hfull'.step (step_iff.mp hstep)
  exact ⟨hnext, hlogged'.trans hlogged, hstdio'.trans hstdio, hpipe.trans hpipe'⟩

/-- The worker that finds the pipe readable then goes round without consuming anything. -/
theorem Full.spins (hfull : Full st) (hcontrol : st.control = .select) (hpipe : st.pipe ≠ []) :
    ∃ st', Step st .select st' ∧ Step st' .log st ∧ ¬ GetsThrough st' := by
  have hroom : stderrBufferSize - st.stderrBuffer.length - 1 - 1 = 0 := by
    rw [hfull.full]
    rfl
  have hselect := Step.select hcontrol hpipe
  rw [hroom] at hselect
  refine ⟨_, hselect, ?_, fun hthrough => hthrough.1 0 [] rfl (.inr rfl) rfl⟩
  have htext : st.stderrBuffer = cstr (st.stderrBuffer ++ []) := by
    rw [List.append_nil, cstr_eq hfull.plain]
  have hlog : Step { st with control := .fgets 0 [] } .log
      { st with
        stderrBuffer := openLine lineFeed st.stderrBuffer
        logged := st.logged ++ completeLines lineFeed st.stderrBuffer
        control := .select } := .log rfl (.inr rfl) htext
  rwa [openLine_of_not_mem hfull.leftover, completeLines_of_not_mem hfull.leftover,
    List.append_nil, ← hcontrol] at hlog

/-- It comes to that where fgets() returns without a newline. -/
theorem Kept.full_of_no_newline (hkept : Kept st) {room : Nat} {got : Bytes}
    (hcontrol : st.control = .fgets room got) (hgot : lineFeed ∉ got) (h : Step st .log st') :
    Full st' := by
  have hlogFree : NulFree .log := trivial
  have hkept' := hkept.step hlogFree h
  cases h with
  | @log room' got' text hcontrol' hdone htext =>
    cases hcontrol.symm.trans hcontrol'
    obtain ⟨hsum, -⟩ := hkept.room room got hcontrol
    have hlength : got.length = room := hdone.resolve_left fun h => hgot (List.mem_of_getLast? h)
    rw [hkept.cstr_text hcontrol] at htext
    have hfree : lineFeed ∉ text := by
      rw [htext]
      exact fun hmem => (List.mem_append.mp hmem).elim hkept.leftover hgot
    refine ⟨?_, not_mem_openLine text, ?_, nofun⟩
    · show (openLine lineFeed text).length = 1022
      rw [openLine_of_not_mem hfree, htext, List.length_append]
      omega
    · intro hmem
      refine hkept'.plain ?_
      rw [hkept'.bytes]
      simp [hmem]

/-- The run of a list of actions, as far as it is one. -/
def executed (acts : List Action) : List (Call State Action Unit) × State :=
  (execute step start acts).getD ([], start)

theorem executed_run {acts : List Action} (h : (execute step start acts).isSome) :
    Run step start (executed acts).1 (executed acts).2 := by
  obtain ⟨result, hresult⟩ := Option.isSome_iff_exists.mp h
  rw [executed, hresult, Option.getD_some]
  exact run_of_execute hresult

/-- A line that arrives in two pieces. -/
def piecewise : List Action :=
  [.write (ascii "Rea"), .select, .read 3, .copy, .write (ascii "dy\n"), .read 3, .copy, .log]

/-- Two lines in one read(): the second stays in the stdio buffer. -/
def burst : List Action := [.write (ascii "a\nb\n"), .select, .read 4, .copy, .log]

end ChaosVpn.WorkerLog
