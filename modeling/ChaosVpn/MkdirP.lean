import ChaosVpn.FileSystem
import Mathlib.Data.List.Induction
import Mathlib.Data.List.TakeWhile

/-! fs_mkdir_p: a directory with all that is missing above it. The path is cut at its last
slash for the recursion, and put together again behind it. -/

namespace ChaosVpn.MkdirP
open CStrings FileSystem TextLines

/-- The loop that finds the last slash; 0 without one. -/
def lastSlash (i pos : Nat) : Bytes → Nat
  | [] => pos
  | c :: path => lastSlash (i + 1) (if c = slash then i else pos) path

structure MkdirResult where
  err : Int
  fs : Files
  path : Bytes

theorem lastSlash_le (i pos : Nat) (path : Bytes) (h : pos ≤ i) :
    lastSlash i pos path ≤ i + path.length ∧
      (lastSlash i pos path = pos ∨ lastSlash i pos path < i + path.length) := by
  induction path generalizing i pos with
  | nil => exact ⟨by simpa [lastSlash] using h, .inl rfl⟩
  | cons c path ih =>
    obtain ⟨hle, hcases⟩ := ih (i + 1) (if c = slash then i else pos) (by split <;> omega)
    rw [List.length_cons]
    rw [lastSlash]
    refine ⟨by omega, ?_⟩
    rcases hcases with heq | hlt
    · rw [heq]
      split
      · exact .inr (by omega)
      · exact .inl rfl
    · exact .inr (by omega)

theorem cstr_set_length {path : Bytes} (h : lastSlash 0 0 (cstr path) ≠ 0) :
    (cstr (path.set (lastSlash 0 0 (cstr path)) 0)).length < (cstr path).length := by
  have hlt := (lastSlash_le 0 0 (cstr path) (Nat.le_refl 0)).2.resolve_left h
  rw [Nat.zero_add] at hlt
  refine Nat.lt_of_le_of_lt ?_ hlt
  generalize lastSlash 0 0 (cstr path) = pos
  clear hlt h
  induction path generalizing pos with
  | nil => simp [cstr]
  | cons c path ih =>
    cases pos with
    | zero => simp [cstr]
    | succ pos =>
      rw [List.set_cons_succ, cstr, List.takeWhile_cons]
      split
      · exact Nat.succ_le_succ (ih pos)
      · exact Nat.zero_le _

/-- The path is the buffer of the caller, which the NUL byte is put into. -/
def fsMkdirP (cwd : Location) (fs : Files) (path : Bytes) : MkdirResult :=
  match mkdir fs cwd (cstr path) with
  | .ok fs => ⟨0, fs, path⟩
  | .error .enoent =>
    let pos := lastSlash 0 0 (cstr path)
    if pos = 0 then ⟨-1, fs, path⟩
    else
      let above := fsMkdirP cwd fs (path.set pos 0)
      if above.err ≠ 0 then above
      else
        let path := above.path.set pos slash
        match mkdir above.fs cwd (cstr path) with
        | .ok fs => ⟨0, fs, path⟩
        | .error _ => ⟨-1, above.fs, path⟩
  | .error _ => ⟨-1, fs, path⟩
termination_by (cstr path).length
decreasing_by exact cstr_set_length ‹_›

/-- Success, with every ancestor there and the path text as it was. -/
def CreatesAll (cwd : Location) (fs : Files) (path : Bytes) : Prop :=
  ∃ fs', fsMkdirP cwd fs path = ⟨0, fs', path⟩ ∧
    ∀ front, front <+: pieces path → ∃ there, walk fs' (startOf cwd path) front = .ok there

/-- `x` is the first piece of a path that is missing. -/
structure Missing (fs : Files) (start : Location) (front : List Bytes) (x : Bytes)
    (here : Location) : Prop where
  directory : fs.node start = some .directory
  reached : walk fs start front = .ok here
  ordinary : Ordinary x
  missing : fs.node (x :: here) = none

/-- Behind the first missing piece stand its slashes and then ordinary names. -/
def PlainBehind (fs : Files) (start : Location) (path : List Bytes) : Prop :=
  ∃ front x here empties names, path = front ++ x :: (empties ++ names) ∧
    Missing fs start front x here ∧ (∀ piece ∈ empties, piece = []) ∧ ∀ name ∈ names, Ordinary name

/-! The text of the path -/

theorem lastSlash_append (i pos : Nat) {front last : Bytes} (h : slash ∉ last) :
    lastSlash i pos (front ++ slash :: last) = i + front.length := by
  have hnone : ∀ (text : Bytes) (i pos : Nat), slash ∉ text → lastSlash i pos text = pos := by
    intro text
    induction text with
    | nil => exact fun _ _ _ => rfl
    | cons c text ih =>
      intro i pos hc
      obtain ⟨hne, htext⟩ : slash ≠ c ∧ slash ∉ text := by simpa using hc
      rw [lastSlash, if_neg (Ne.symm hne), ih _ _ htext]
  induction front generalizing i pos with
  | nil =>
    rw [List.nil_append, lastSlash, if_pos rfl, hnone last _ _ h, List.length_nil, Nat.add_zero]
  | cons c front ih =>
    rw [List.cons_append, lastSlash, ih, List.length_cons]
    omega

/-- A text in a buffer, with its NUL byte and what an earlier text has left behind it. -/
structure InBuffer (path text tail : Bytes) : Prop where
  path_eq : path = text ++ tail
  noNul : (0 : UInt8) ∉ text
  ends : ∀ c, tail.head? = some c → c = 0

variable {cwd start here : Location} {fs : Files} {path text tail before last x : Bytes}
  {front names back : List Bytes}

theorem InBuffer.cstr_eq (h : InBuffer path text tail) : cstr path = text := by
  rw [h.path_eq, cstr, List.takeWhile_append_of_pos]
  · cases tail with
    | nil => simp
    | cons c tail => simp [h.ends c rfl]
  · intro c hc
    rw [decide_eq_true_eq]
    rintro rfl
    exact h.noNul hc

theorem InBuffer.lastSlash_eq (h : InBuffer path (before ++ slash :: last) tail)
    (hlast : slash ∉ last) : lastSlash 0 0 (cstr path) = before.length := by
  rw [h.cstr_eq, lastSlash_append _ _ hlast, Nat.zero_add]

theorem InBuffer.cut (h : InBuffer path (before ++ slash :: last) tail) :
    InBuffer (path.set before.length 0) before (0 :: (last ++ tail)) ∧
      (path.set before.length 0).set before.length slash = path := by
  have hpath : path = before ++ slash :: (last ++ tail) := by simp [h.path_eq]
  have hset (c : UInt8) : path.set before.length c = before ++ c :: (last ++ tail) := by
    rw [hpath, List.set_append_right _ _ (Nat.le_refl _), Nat.sub_self]
    rfl
  rw [List.set_set, hset, hset]
  exact ⟨⟨rfl, fun hmem => h.noNul (List.mem_append_left _ hmem), by simp⟩, hpath.symm⟩

theorem fsMkdirP_enoent {pos : Nat} (hmissing : mkdir fs cwd (cstr path) = .error .enoent)
    (hpos : lastSlash 0 0 (cstr path) = pos) (hne : pos ≠ 0) :
    fsMkdirP cwd fs path =
      if (fsMkdirP cwd fs (path.set pos 0)).err ≠ 0 then fsMkdirP cwd fs (path.set pos 0)
      else
        match mkdir (fsMkdirP cwd fs (path.set pos 0)).fs cwd
            (cstr ((fsMkdirP cwd fs (path.set pos 0)).path.set pos slash)) with
        | .ok fs' => ⟨0, fs', (fsMkdirP cwd fs (path.set pos 0)).path.set pos slash⟩
        | .error _ => ⟨-1, (fsMkdirP cwd fs (path.set pos 0)).fs,
            (fsMkdirP cwd fs (path.set pos 0)).path.set pos slash⟩ := by
  rw [fsMkdirP, hmissing]
  simp only [hpos, if_neg hne]

/-- One level of the recursion, where the path is behind something that is missing. -/
theorem fsMkdirP_level (h : InBuffer path (before ++ slash :: last) tail) (hlast : slash ∉ last)
    (hbefore : before ≠ []) (hmissing : mkdir fs cwd (before ++ slash :: last) = .error .enoent) :
    ∃ cut, InBuffer cut before (0 :: (last ++ tail)) ∧
      ((fsMkdirP cwd fs cut).err ≠ 0 → (fsMkdirP cwd fs path).err ≠ 0) ∧
      ∀ fs', fsMkdirP cwd fs cut = ⟨0, fs', cut⟩ →
        (∀ fs'', mkdir fs' cwd (before ++ slash :: last) = .ok fs'' →
            fsMkdirP cwd fs path = ⟨0, fs'', path⟩) ∧
          ∀ e, mkdir fs' cwd (before ++ slash :: last) = .error e →
            (fsMkdirP cwd fs path).err ≠ 0 := by
  obtain ⟨hcut, hrestored⟩ := h.cut
  have hne : before.length ≠ 0 := mt List.length_eq_zero_iff.mp hbefore
  rw [← h.cstr_eq] at hmissing
  have hround := fsMkdirP_enoent hmissing (h.lastSlash_eq hlast) hne
  refine ⟨_, hcut, fun herr => ?_, fun fs' habove => ⟨fun fs'' hmk => ?_, fun e hmk => ?_⟩⟩
  · rw [hround, if_pos herr]
    exact herr
  · rw [hround, habove, if_neg (by simp), hrestored, h.cstr_eq, hmk]
  · rw [hround, habove, if_neg (by simp), hrestored, h.cstr_eq, hmk]
    simp

/-! What mkdir() answers -/

theorem Missing.mkdir_behind (h : Missing fs (startOf cwd text) front x here)
    (hpieces : pieces text = front ++ x :: back) (hback : ∃ piece ∈ back, piece ≠ []) :
    mkdir fs cwd text = .error .enoent := by
  have hwalk (more : List Bytes) :
      walk fs (startOf cwd text) (front ++ x :: more) = .error .enoent := by
    rw [walk_append_ok h.reached, walk_cons_error (enter_missing h.ordinary h.missing)]
  have hempty : ∃ piece ∈ back, (!piece.isEmpty) = true := by simpa using hback
  obtain ⟨middle, last, empties, rfl, hlast, hempties⟩ := split_last hempty
  have hsplit : splitLast (pieces text) = some (front ++ x :: middle, last) := by
    rw [hpieces, ← List.cons_append, ← List.append_assoc]
    exact splitLast_of_nonempty (by simpa using hlast) (by simpa using hempties)
  exact mkdir_error hsplit (hwalk middle)

/-- A path that leads somewhere exists. -/
theorem mkdir_exists {there : Location}
    (hwalk : walk fs (startOf cwd text) (pieces text) = .ok there) (htext : text ≠ []) :
    mkdir fs cwd text = .error .eexist := by
  rcases splitLast_cases (pieces text) with hempties | ⟨front, last, empties, heq, hlast, hempties⟩
  · rw [mkdir, splitLast_of_empties hempties]
    simp [htext]
  · have hsplit : splitLast (pieces text) = some (front, last) := by
      rw [heq, splitLast_of_nonempty hlast hempties]
    rw [heq, walk_append] at hwalk
    cases hparent : walk fs (startOf cwd text) front with
    | error e => simp [hparent, Except.bind] at hwalk
    | ok parent =>
      rw [hparent] at hwalk
      have hthere : ¬ (Ordinary last ∧ fs.node parent = some .directory ∧
          fs.node (last :: parent) = none) := by
        rintro ⟨hordinary, -, hnone⟩
        rw [Except.bind, walk_cons_error (enter_missing hordinary hnone)] at hwalk
        cases hwalk
      rw [mkdir_parent hsplit hparent, dif_neg hthere]

/-- What stays and what is new when the missing piece and names below it are created. -/
structure Grown (fs fs' : Files) (start : Location) (path : List Bytes) (there : Location) :
    Prop where
  keeps : ∀ loc, fs.node loc = some .directory → fs'.node loc = some .directory
  reached : walk fs' start path = .ok there
  fresh : ∀ name, fs'.node (name :: there) = none

theorem mkdir_new {name : Bytes} {empties : List Bytes} {parent : Location}
    (hpieces : pieces text = front ++ name :: empties) (hempties : ∀ piece ∈ empties, piece = [])
    (hname : Ordinary name) (hwalk : walk fs (startOf cwd text) front = .ok parent)
    (hparent : fs.node parent = some .directory) (hfree : fs.node (name :: parent) = none) :
    ∃ fs', mkdir fs cwd text = .ok fs' ∧
      Grown fs fs' (startOf cwd text) (pieces text) (name :: parent) := by
  have hnew : Ordinary name ∧ fs.node parent = some .directory ∧ fs.node (name :: parent) = none :=
    ⟨hname, hparent, hfree⟩
  have hsplit : splitLast (pieces text) = some (front, name) := by
    rw [hpieces, splitLast_of_nonempty hname.nonempty hempties]
  refine ⟨fs.put name parent .directory hname hparent (Files.free_of_none hfree), ?_, ?_⟩
  · rw [mkdir_parent hsplit hwalk, dif_pos hnew]
  · have hkeeps : ∀ loc, fs.node loc = some .directory →
        (fs.put name parent .directory hname hparent (Files.free_of_none hfree)).node loc =
          some .directory := by
      intro loc hloc
      by_cases heq : loc = name :: parent
      · rw [heq, Files.put_self]
      · rw [Files.put_of_ne _ _ _ heq, hloc]
    refine ⟨hkeeps, ?_, fun below => ?_⟩
    · rw [hpieces, walk_append_ok (walk_mono hkeeps hwalk),
        walk_cons_ok (enter_ordinary hname (Files.put_self _ _ _)), walk_empties hempties]
    · have hne : below :: name :: parent ≠ name :: parent := fun h => by
        simpa using congrArg List.length h
      rw [Files.put_of_ne _ _ _ hne]
      exact node_below_missing hfree [below]

/-! The recursion -/

theorem startOf_append (h : before ≠ []) (rest : Bytes) :
    startOf cwd (before ++ rest) = startOf cwd before := by
  cases before with
  | nil => exact absurd rfl h
  | cons c before => rfl

/-- The last level of a path with more than the missing piece. -/
theorem last_level {piece : Bytes} (hmissing : Missing fs (startOf cwd text) front x here)
    (hpieces : pieces text = front ++ x :: back ++ [piece]) :
    ∃ before, text = before ++ slash :: piece ∧ slash ∉ piece ∧ before ≠ [] ∧
      pieces before = front ++ x :: back ∧ startOf cwd before = startOf cwd text := by
  obtain ⟨before, htext, hbefore⟩ := text_of_pieces hpieces (by simp)
  have hne : before ≠ [] := by
    rintro rfl
    have hsingle : pieces [] = [[]] := rfl
    rw [hsingle] at hbefore
    cases front with
    | nil => exact hmissing.ordinary.nonempty (List.cons.inj hbefore).1.symm
    | cons y front => simpa using (List.cons.inj hbefore).2
  refine ⟨before, htext, (mem_pieces (by rw [hpieces]; simp)).1, hne, hbefore, ?_⟩
  rw [htext, startOf_append hne]

/-- Ordinary names behind the missing piece are created with it. -/
theorem fsMkdirP_plain {empties : List Bytes} (hempties : ∀ piece ∈ empties, piece = [])
    (hnames : ∀ name ∈ names, Ordinary name) (hbuffer : InBuffer path text tail)
    (hmissing : Missing fs (startOf cwd text) front x here)
    (hpieces : pieces text = front ++ x :: (empties ++ names)) :
    ∃ fs' there, fsMkdirP cwd fs path = ⟨0, fs', path⟩ ∧
      Grown fs fs' (startOf cwd text) (pieces text) there := by
  induction names using List.reverseRecOn generalizing path text tail with
  | nil =>
    rw [List.append_nil] at hpieces
    obtain ⟨fs', hmk, hgrown⟩ := mkdir_new hpieces hempties hmissing.ordinary hmissing.reached
      (walk_directory hmissing.directory hmissing.reached) hmissing.missing
    refine ⟨fs', _, ?_, hgrown⟩
    rw [fsMkdirP, hbuffer.cstr_eq, hmk]
  | append_singleton names name ih =>
    have hname : Ordinary name := hnames name (by simp)
    have hbehind : ∃ piece ∈ empties ++ (names ++ [name]), piece ≠ [] :=
      ⟨name, by simp, hname.nonempty⟩
    have henoent := hmissing.mkdir_behind hpieces hbehind
    have hlast : pieces text = front ++ x :: (empties ++ names) ++ [name] := by
      simpa using hpieces
    obtain ⟨before, rfl, hslash, hne, hbefore, hstart⟩ := last_level hmissing hlast
    obtain ⟨cut, hcut, -, hlevel⟩ := fsMkdirP_level hbuffer hslash hne henoent
    obtain ⟨fs', there, habove, hgrown⟩ := ih (fun n hn => hnames n (by simp [hn])) hcut
      (hstart ▸ hmissing) hbefore
    have hthere : fs'.node there = some .directory :=
      walk_directory (hgrown.keeps _ (hstart ▸ hmissing.directory)) hgrown.reached
    have hpieces' : pieces (before ++ slash :: name) = pieces before ++ name :: [] :=
      pieces_append hslash
    obtain ⟨fs'', hmk, hgrown'⟩ := mkdir_new hpieces' (by simp) hname
      (hstart ▸ hgrown.reached) hthere (hgrown.fresh name)
    exact ⟨fs'', _, (hlevel fs' habove).1 fs'' hmk,
      fun loc hloc => hgrown'.keeps loc (hgrown.keeps loc hloc), hgrown'.reached, hgrown'.fresh⟩

theorem enter_of_not_ordinary {piece : Bytes} (hpiece : piece ∈ pieces text)
    (hnul : (0 : UInt8) ∉ text) (h : ¬ Ordinary piece) (fs : Files) (here : Location) :
    ∃ there, enter fs here piece = .ok there := by
  obtain ⟨hslash, hmem⟩ := mem_pieces hpiece
  by_cases hdot : piece = [] ∨ piece = dot
  · exact ⟨here, by rw [enter, if_pos hdot]⟩
  · by_cases hdotdot : piece = dotdot
    · exact ⟨here.tail, by rw [enter, if_neg hdot, if_pos hdotdot]⟩
    · obtain ⟨hne, hdot⟩ := not_or.mp hdot
      exact absurd ⟨hne, hdot, hdotdot, hslash, fun h0 => hnul (hmem 0 h0)⟩ h

/-- Behind a piece that exists once the one in front of it is created, the recursion has
failed. -/
theorem fsMkdirP_fails {piece : Bytes} {empties : List Bytes}
    (hempties : ∀ piece ∈ empties, piece = []) (hnames : ∀ name ∈ names, Ordinary name)
    (hpiece : ¬ Ordinary piece) (hbehind : ∃ p ∈ names ++ [piece], p ≠ [])
    (hbuffer : InBuffer path text tail) (hmissing : Missing fs (startOf cwd text) front x here)
    (hpieces : pieces text = front ++ x :: (empties ++ names ++ piece :: back)) :
    (fsMkdirP cwd fs path).err ≠ 0 := by
  have hmore (after : List Bytes) : ∃ p ∈ empties ++ names ++ piece :: after, p ≠ [] := by
    obtain ⟨p, hp, hne⟩ := hbehind
    refine ⟨p, ?_, hne⟩
    rcases List.mem_append.mp hp with hp | hp
    · exact List.mem_append_left _ (List.mem_append_right _ hp)
    · obtain rfl := List.mem_singleton.mp hp
      simp
  have henoent := hmissing.mkdir_behind hpieces (hmore back)
  induction back using List.reverseRecOn generalizing path text tail with
  | nil =>
    have hmem : piece ∈ pieces text := by simp [hpieces]
    have hlast : pieces text = front ++ x :: (empties ++ names) ++ [piece] := by
      simpa using hpieces
    obtain ⟨before, rfl, hslash, hne, hbefore, hstart⟩ := last_level hmissing hlast
    obtain ⟨cut, hcut, -, hlevel⟩ := fsMkdirP_level hbuffer hslash hne henoent
    obtain ⟨fs', there, habove, hgrown⟩ := fsMkdirP_plain hempties hnames hcut
      (hstart ▸ hmissing) hbefore
    obtain ⟨beyond, henter⟩ := enter_of_not_ordinary hmem hbuffer.noNul hpiece fs' there
    have hwalk : walk fs' (startOf cwd (before ++ slash :: piece))
        (pieces (before ++ slash :: piece)) = .ok beyond := by
      rw [pieces_append hslash, ← hstart, walk_append_ok hgrown.reached, walk_cons_ok henter,
        walk_nil]
    exact (hlevel fs' habove).2 _ (mkdir_exists hwalk (by simp))
  | append_singleton back last ih =>
    have hlast : pieces text =
        front ++ x :: (empties ++ names ++ piece :: back) ++ [last] := by
      simpa using hpieces
    obtain ⟨before, rfl, hslash, hne, hbefore, hstart⟩ := last_level hmissing hlast
    obtain ⟨cut, hcut, hfails, -⟩ := fsMkdirP_level hbuffer hslash hne henoent
    have habove : Missing fs (startOf cwd before) front x here := hstart ▸ hmissing
    exact hfails (ih hcut habove hbefore (habove.mkdir_behind hbefore (hmore back)))

/-- Where a path that does not exist begins to be missing. -/
theorem missing_of_enoent (hstart : fs.node start = some .directory)
    (hnul : ∀ piece ∈ back, slash ∉ piece ∧ (0 : UInt8) ∉ piece)
    (h : walk fs start back = .error .enoent) :
    ∃ front x here rest, back = front ++ x :: rest ∧ Missing fs start front x here := by
  induction back using List.reverseRecOn with
  | nil => cases h
  | append_singleton back piece ih =>
    rw [walk_append] at h
    cases hback : walk fs start back with
    | error e =>
      rw [hback] at h
      obtain ⟨front, x, here, rest, rfl, hmissing⟩ :=
        ih (fun p hp => hnul p (by simp [hp])) (hback.trans h)
      exact ⟨front, x, here, rest ++ [piece], by simp, hmissing⟩
    | ok here =>
      rw [hback] at h
      have henter : enter fs here piece = .error .enoent := by
        cases hpiece : enter fs here piece with
        | error e => simpa [Except.bind, walk_cons_error hpiece] using h
        | ok there => simp [Except.bind, walk_cons_ok hpiece] at h
      obtain ⟨hslash, h0⟩ := hnul piece (by simp)
      unfold enter at henter
      split at henter
      · cases henter
      · rename_i hplain
        split at henter
        · cases henter
        · rename_i hdotdot
          obtain ⟨hne, hdot⟩ := not_or.mp hplain
          split at henter
          · rename_i hnode
            have hordinary : Ordinary piece := ⟨hne, hdot, hdotdot, hslash, h0⟩
            exact ⟨back, piece, here, [], rfl, hstart, hback, hordinary, hnode⟩
          · cases henter
          · cases henter

theorem not_plain_fails (hbuffer : InBuffer path text tail)
    (hmissing : Missing fs (startOf cwd text) front x here)
    (hpieces : pieces text = front ++ x :: back)
    (hplain : ¬ PlainBehind fs (startOf cwd text) (pieces text)) :
    (fsMkdirP cwd fs path).err ≠ 0 := by
  obtain ⟨empties, rest, rfl, hempties, hrest⟩ := split_while List.isEmpty back
  replace hempties : ∀ piece ∈ empties, piece = [] := by simpa using hempties
  have hbad : ∃ piece ∈ rest, (!decide (Ordinary piece)) = true := by
    by_contra hall
    refine hplain ⟨front, x, here, empties, rest, hpieces, hmissing, hempties, fun name hname => ?_⟩
    by_contra hname'
    exact hall ⟨name, hname, by simpa using hname'⟩
  obtain ⟨names, piece, back, rfl, hpiece, hnames⟩ := split_first hbad
  have hnames' : ∀ name ∈ names, Ordinary name := by simpa using hnames
  have hbehind : ∃ p ∈ names ++ [piece], p ≠ [] := by
    cases names with
    | nil => exact ⟨piece, by simp, by simpa using hrest piece rfl⟩
    | cons name names => exact ⟨name, by simp, (hnames' name (by simp)).nonempty⟩
  rw [← List.append_assoc] at hpieces
  exact fsMkdirP_fails hempties hnames' (by simpa using hpiece) hbehind hbuffer hmissing hpieces

/-- Behind the first missing piece the path must not have a doubled or trailing slash, `.` or
`..`, except for the slashes that belong to this piece. -/
theorem createsAll_iff (fs : Files) (cwd : Location) (path : Bytes)
    (hcwd : fs.node cwd = some .directory) (hnul : (0 : UInt8) ∉ path)
    (hmissing : walk fs (startOf cwd path) (pieces path) = .error .enoent) :
    CreatesAll cwd fs path ↔ PlainBehind fs (startOf cwd path) (pieces path) := by
  have hbuffer : InBuffer path path [] := ⟨by simp, hnul, by simp⟩
  constructor
  · rintro ⟨fs', hresult, -⟩
    by_contra hplain
    obtain ⟨front, x, here, back, hpieces, hfirst⟩ := missing_of_enoent
      (startOf_directory hcwd path)
      (fun piece hpiece => ⟨(mem_pieces hpiece).1, fun h0 => hnul ((mem_pieces hpiece).2 0 h0)⟩)
      hmissing
    have herr := not_plain_fails hbuffer hfirst hpieces hplain
    rw [hresult] at herr
    exact herr rfl
  · rintro ⟨front, x, here, empties, names, hpieces, hfirst, hempties, hnames⟩
    obtain ⟨fs', there, hresult, hgrown⟩ :=
      fsMkdirP_plain hempties hnames hbuffer hfirst hpieces
    refine ⟨fs', hresult, fun above habove => ?_⟩
    obtain ⟨below, hbelow⟩ := habove
    have hreached := hgrown.reached
    rw [← hbelow, walk_append] at hreached
    cases hwalk : walk fs' (startOf cwd path) above with
    | error e => simp [hwalk, Except.bind] at hreached
    | ok there' => exact ⟨there', rfl⟩

/-- A file system with nothing in it yet. -/
def bareRoot : Files where
  node loc := if loc = [] then some .directory else none
  root := rfl
  parents _ _ h := absurd rfl h
  names _ _ h := absurd rfl h

theorem bareRoot_missing {x : Bytes} (hx : Ordinary x) : Missing bareRoot [] [[]] x [] :=
  ⟨rfl, rfl, hx, rfl⟩

theorem createsAll_base : CreatesAll [] bareRoot (ascii "/etc/tinc/vpn") :=
  (createsAll_iff bareRoot [] _ rfl (by decide) (by decide +kernel)).mpr
    ⟨[[]], ascii "etc", [], [], [ascii "tinc", ascii "vpn"], by decide +kernel,
      bareRoot_missing (by decide), by decide, by decide⟩

/-- The hosts directory as tinc_write_hosts asks for it, when the one above is missing: both
are created, and the second mkdir() of the last one fails. -/
theorem hosts_fails :
    walk bareRoot [] (pieces (ascii "/vpn/hosts/")) = .error .enoent ∧
      ¬ CreatesAll [] bareRoot (ascii "/vpn/hosts/") := by
  refine ⟨by decide +kernel, ?_⟩
  rintro ⟨fs', hresult, -⟩
  have hbuffer : InBuffer (ascii "/vpn/hosts/") (ascii "/vpn/hosts/") [] :=
    ⟨by simp, by decide, by simp⟩
  have hpieces : pieces (ascii "/vpn/hosts/") =
      [[]] ++ ascii "vpn" :: ([] ++ [ascii "hosts"] ++ [] :: []) := by decide +kernel
  have hfails : (fsMkdirP [] bareRoot (ascii "/vpn/hosts/")).err ≠ 0 :=
    fsMkdirP_fails (by simp) (by decide) (by decide) ⟨ascii "hosts", by simp, by decide⟩ hbuffer
      (bareRoot_missing (by decide)) hpieces
  rw [hresult] at hfails
  exact hfails rfl

end ChaosVpn.MkdirP
