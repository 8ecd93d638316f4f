import Mathlib.Data.List.TakeWhile
import Mathlib.Logic.Function.Basic
import ChaosVpn.CStrings
import ChaosVpn.Library.TextLines

/-! A file system of directories and regular files, and the system calls on paths. A path
is walked piece by piece between its slashes. Permissions are taken to allow everything,
and there are no links. -/

namespace ChaosVpn.FileSystem
open CStrings

inductive Node
  | directory
  | regular (contents : Bytes)
  deriving DecidableEq

def dot : Bytes := ascii "."
def dotdot : Bytes := ascii ".."

/-- The names that entries of a directory can have. -/
structure Ordinary (name : Bytes) : Prop where
  nonempty : name ≠ []
  not_dot : name ≠ dot
  not_dotdot : name ≠ dotdot
  noSlash : slash ∉ name
  noNul : (0 : UInt8) ∉ name

instance (name : Bytes) : Decidable (Ordinary name) :=
  decidable_of_iff (name ≠ [] ∧ name ≠ dot ∧ name ≠ dotdot ∧ slash ∉ name ∧ (0 : UInt8) ∉ name)
    ⟨fun h => ⟨h.1, h.2.1, h.2.2.1, h.2.2.2.1, h.2.2.2.2⟩,
      fun h => ⟨h.nonempty, h.not_dot, h.not_dotdot, h.noSlash, h.noNul⟩⟩

/-- The names from the innermost directory out to the root. -/
abbrev Location := List Bytes

structure Files where
  node : Location → Option Node
  root : node [] = some .directory
  parents : ∀ name parent, node (name :: parent) ≠ none → node parent = some .directory
  names : ∀ name parent, node (name :: parent) ≠ none → Ordinary name

inductive Errno
  | enoent
  | enotdir
  | eexist
  | eisdir
  deriving DecidableEq

/-- A new entry, or new contents of a regular file. -/
def Files.put (fs : Files) (name : Bytes) (parent : Location) (node : Node) (hname : Ordinary name)
    (hparent : fs.node parent = some .directory)
    (hfree : fs.node (name :: parent) ≠ some .directory) : Files where
  node := Function.update fs.node (name :: parent) (some node)
  root := by
    rw [Function.update_of_ne (List.cons_ne_nil name parent).symm]
    exact fs.root
  parents := by
    intro n p hne
    have hself : parent ≠ name :: parent := fun h => by simpa using congrArg List.length h
    by_cases heq : n :: p = name :: parent
    · obtain ⟨rfl, rfl⟩ := List.cons.inj heq
      rw [Function.update_of_ne hself]
      exact hparent
    · rw [Function.update_of_ne heq] at hne
      have hp := fs.parents n p hne
      have hother : p ≠ name :: parent := by
        rintro rfl
        exact hfree hp
      rw [Function.update_of_ne hother]
      exact hp
  names := by
    intro n p hne
    by_cases heq : n :: p = name :: parent
    · exact (List.cons.inj heq).1 ▸ hname
    · rw [Function.update_of_ne heq] at hne
      exact fs.names n p hne

@[simp] theorem Files.put_self {fs : Files} {name : Bytes} {parent : Location} {node : Node}
    (hname : Ordinary name) (hparent : fs.node parent = some .directory)
    (hfree : fs.node (name :: parent) ≠ some .directory) :
    (fs.put name parent node hname hparent hfree).node (name :: parent) = some node :=
  Function.update_self _ _ _

theorem Files.put_of_ne {fs : Files} {name : Bytes} {parent loc : Location} {node : Node}
    (hname : Ordinary name) (hparent : fs.node parent = some .directory)
    (hfree : fs.node (name :: parent) ≠ some .directory) (h : loc ≠ name :: parent) :
    (fs.put name parent node hname hparent hfree).node loc = fs.node loc :=
  Function.update_of_ne h _ _

theorem Files.free_of_none {fs : Files} {loc : Location} (h : fs.node loc = none) :
    fs.node loc ≠ some .directory := by simp [h]

/-! Walking along a path -/

def pieces (path : Bytes) : List Bytes := path.splitOn slash

def startOf (cwd : Location) (path : Bytes) : Location :=
  if path.head? = some slash then [] else cwd

def enter (fs : Files) (here : Location) (piece : Bytes) : Except Errno Location :=
  if piece = [] ∨ piece = dot then .ok here
  else if piece = dotdot then .ok here.tail
  else
    match fs.node (piece :: here) with
    | none => .error .enoent
    | some .directory => .ok (piece :: here)
    | some (.regular _) => .error .enotdir

def walk (fs : Files) (here : Location) (path : List Bytes) : Except Errno Location :=
  path.foldlM (enter fs) here

/-- The last piece in front of trailing slashes, and what leads to it. -/
def splitLast (path : List Bytes) : Option (List Bytes × Bytes) :=
  match path.reverse.dropWhile List.isEmpty with
  | [] => none
  | last :: front => some (front.reverse, last)

def mkdir (fs : Files) (cwd : Location) (path : Bytes) : Except Errno Files :=
  match splitLast (pieces path) with
  | none => .error (if path = [] then .enoent else .eexist)
  | some (front, last) => do
    let parent ← walk fs (startOf cwd path) front
    if h : Ordinary last ∧ fs.node parent = some .directory ∧ fs.node (last :: parent) = none then
      .ok (fs.put last parent .directory h.1 h.2.1 (Files.free_of_none h.2.2))
    else .error .eexist

/-- stat() on a path. -/
def lookup (fs : Files) (cwd : Location) (path : Bytes) : Except Errno Node :=
  if path = [] then .error .enoent
  else do
    let last := (pieces path).getLastD []
    let parent ← walk fs (startOf cwd path) (pieces path).dropLast
    if last = [] ∨ last = dot ∨ last = dotdot then .ok .directory
    else (fs.node (last :: parent)).elim (.error .enoent) .ok

/-- Where chdir() and opendir() go. -/
def chdir (fs : Files) (cwd : Location) (path : Bytes) : Except Errno Location :=
  if path = [] then .error .enoent else walk fs (startOf cwd path) (pieces path)

/-- A regular file that is there or can be created. -/
structure Writable (fs : Files) where
  name : Bytes
  parent : Location
  ordinary : Ordinary name
  directory : fs.node parent = some .directory
  free : fs.node (name :: parent) ≠ some .directory

/-- open() with O_CREAT and O_WRONLY. -/
def openCreate (fs : Files) (cwd : Location) (path : Bytes) : Except Errno (Writable fs) := do
  let last := (pieces path).getLastD []
  let parent ← walk fs (startOf cwd path) (pieces path).dropLast
  if h : Ordinary last ∧ fs.node parent = some .directory ∧
      fs.node (last :: parent) ≠ some .directory then
    .ok ⟨last, parent, h.1, h.2.1, h.2.2⟩
  else .error .eisdir

def Writable.put {fs : Files} (file : Writable fs) (contents : Bytes) : Files :=
  fs.put file.name file.parent (.regular contents) file.ordinary file.directory file.free

def fsEnsureSuffix (path : Bytes) : Bytes :=
  if path.getLast? = some slash then path else path ++ [slash]

/-- The path of a directory as getcwd() gives it. -/
def getcwd (cwd : Location) : Bytes :=
  if cwd = [] then [slash] else cwd.reverse.flatMap (slash :: ·)

def fsGetCwd (cwd : Location) : Bytes := fsEnsureSuffix (getcwd cwd)

variable {fs fs' : Files} {here there : Location} {path front back : List Bytes}

@[simp] theorem walk_nil : walk fs here [] = .ok here := rfl

theorem walk_append : walk fs here (front ++ back) = (walk fs here front).bind (walk fs · back) :=
  List.foldlM_append

theorem walk_append_ok (h : walk fs here front = .ok there) :
    walk fs here (front ++ back) = walk fs there back := by
  rw [walk_append, h]
  rfl

theorem walk_cons (piece : Bytes) :
    walk fs here (piece :: path) = (enter fs here piece).bind (walk fs · path) := rfl

theorem walk_cons_ok {piece : Bytes} (h : enter fs here piece = .ok there) :
    walk fs here (piece :: path) = walk fs there path := by
  rw [walk_cons, h]
  rfl

theorem walk_cons_error {piece : Bytes} {e : Errno} (h : enter fs here piece = .error e) :
    walk fs here (piece :: path) = .error e := by
  rw [walk_cons, h]
  rfl

theorem enter_empty : enter fs here [] = .ok here := by simp [enter]

theorem walk_empties (h : ∀ piece ∈ path, piece = []) : walk fs here path = .ok here := by
  induction path with
  | nil => rfl
  | cons piece path ih =>
    obtain ⟨rfl, hpath⟩ := List.forall_mem_cons.mp h
    rw [walk_cons_ok enter_empty, ih hpath]

theorem enter_ordinary {name : Bytes} (h : Ordinary name)
    (hnode : fs.node (name :: here) = some .directory) :
    enter fs here name = .ok (name :: here) := by
  simp [enter, h.nonempty, h.not_dot, h.not_dotdot, hnode]

theorem enter_missing {name : Bytes} (h : Ordinary name) (hnode : fs.node (name :: here) = none) :
    enter fs here name = .error .enoent := by
  simp [enter, h.nonempty, h.not_dot, h.not_dotdot, hnode]

theorem mkdir_error {cwd : Location} {text last : Bytes} {e : Errno}
    (hsplit : splitLast (pieces text) = some (front, last))
    (hwalk : walk fs (startOf cwd text) front = .error e) : mkdir fs cwd text = .error e := by
  simp only [mkdir, hsplit, hwalk]
  rfl

theorem mkdir_parent {cwd : Location} {text last : Bytes}
    (hsplit : splitLast (pieces text) = some (front, last))
    (hwalk : walk fs (startOf cwd text) front = .ok there) :
    mkdir fs cwd text =
      if h : Ordinary last ∧ fs.node there = some .directory ∧ fs.node (last :: there) = none then
        .ok (fs.put last there .directory h.1 h.2.1 (Files.free_of_none h.2.2))
      else .error .eexist := by
  simp only [mkdir, hsplit, hwalk]
  rfl

/-- What entering a directory leads to. -/
theorem enter_ok_cases {piece : Bytes} (h : enter fs here piece = .ok there) :
    there = here ∨ there = here.tail ∨
      there = piece :: here ∧ fs.node (piece :: here) = some .directory := by
  unfold enter at h
  split at h
  · exact .inl (Except.ok.inj h).symm
  · split at h
    · exact .inr (.inl (Except.ok.inj h).symm)
    · split at h
      · cases h
      · rename_i hnode
        exact .inr (.inr ⟨(Except.ok.inj h).symm, hnode⟩)
      · cases h

theorem enter_mono (hkeep : ∀ loc, fs.node loc = some .directory → fs'.node loc = some .directory)
    {piece : Bytes} (h : enter fs here piece = .ok there) : enter fs' here piece = .ok there := by
  unfold enter at h ⊢
  split
  · rename_i hpiece
    rwa [if_pos hpiece] at h
  · rename_i hpiece
    rw [if_neg hpiece] at h
    split
    · rename_i hup
      rwa [if_pos hup] at h
    · rename_i hup
      rw [if_neg hup] at h
      split at h
      · cases h
      · rename_i hnode
        rw [hkeep _ hnode]
        exact h
      · cases h

theorem walk_mono (hkeep : ∀ loc, fs.node loc = some .directory → fs'.node loc = some .directory)
    (h : walk fs here path = .ok there) : walk fs' here path = .ok there := by
  induction path generalizing here with
  | nil => exact h
  | cons piece path ih =>
    rw [walk_cons] at h
    cases hfirst : enter fs here piece with
    | error e => simp [hfirst, Except.bind] at h
    | ok next =>
      rw [hfirst] at h
      rw [walk_cons_ok (enter_mono hkeep hfirst)]
      exact ih h

theorem tail_directory (h : fs.node here = some .directory) :
    fs.node here.tail = some .directory := by
  cases here with
  | nil => exact fs.root
  | cons name parent => exact fs.parents name parent (by simp [h])

theorem walk_directory (hhere : fs.node here = some .directory)
    (h : walk fs here path = .ok there) : fs.node there = some .directory := by
  induction path generalizing here with
  | nil => exact Except.ok.inj h ▸ hhere
  | cons piece path ih =>
    rw [walk_cons] at h
    cases hfirst : enter fs here piece with
    | error e => simp [hfirst, Except.bind] at h
    | ok next =>
      rw [hfirst] at h
      refine ih ?_ h
      rcases enter_ok_cases hfirst with rfl | rfl | ⟨rfl, hnode⟩
      · exact hhere
      · exact tail_directory hhere
      · exact hnode

theorem startOf_directory {cwd : Location} (h : fs.node cwd = some .directory) (path : Bytes) :
    fs.node (startOf cwd path) = some .directory := by
  unfold startOf
  split
  · exact fs.root
  · exact h

/-- Nothing is below what is not there. -/
theorem node_below_missing (h : fs.node here = none) (below : List Bytes) :
    fs.node (below ++ here) = none := by
  induction below with
  | nil => exact h
  | cons name below ih =>
    by_contra hnode
    have := fs.parents name (below ++ here) hnode
    simp [ih] at this

/-! The pieces of a path text -/

theorem pieces_append {text last : Bytes} (h : slash ∉ last) :
    pieces (text ++ slash :: last) = pieces text ++ [last] := by
  rw [pieces, List.splitOn_append_cons_self, List.splitOn_eq_singleton h, pieces]

theorem mem_pieces {text piece : Bytes} (h : piece ∈ pieces text) :
    slash ∉ piece ∧ ∀ c ∈ piece, c ∈ text := TextLines.mem_line h

/-- A path of several pieces is cut at its last slash. -/
theorem text_of_pieces {text last : Bytes} (h : pieces text = front ++ [last]) (hne : front ≠ []) :
    ∃ before, text = before ++ slash :: last ∧ pieces before = front := by
  have hslash : ∃ c ∈ text, (c == slash) = true := by
    by_contra hnone
    have hnot : slash ∉ text := fun hmem => hnone ⟨slash, hmem, by simp⟩
    rw [pieces, List.splitOn_eq_singleton hnot] at h
    cases front with
    | nil => exact hne rfl
    | cons x xs => simp at h
  obtain ⟨before, c, after, rfl, hc, hafter⟩ := TextLines.split_last hslash
  obtain rfl := eq_of_beq hc
  have hnot : slash ∉ after := fun hmem => by simpa using hafter slash hmem
  rw [pieces_append hnot] at h
  obtain ⟨hfront, hlast⟩ := List.append_inj' h rfl
  exact ⟨before, by rw [List.singleton_inj.mp hlast], hfront⟩

theorem splitLast_of_nonempty {last : Bytes} {empties : List Bytes} (hlast : last ≠ [])
    (hempties : ∀ piece ∈ empties, piece = []) :
    splitLast (front ++ last :: empties) = some (front, last) := by
  have hdrop : (front ++ last :: empties).reverse.dropWhile List.isEmpty =
      last :: front.reverse := by
    rw [List.reverse_append, List.reverse_cons, List.append_assoc,
      List.dropWhile_append_of_pos (by simpa using hempties)]
    simp [hlast]
  rw [splitLast, hdrop]
  simp

theorem splitLast_of_empties (h : ∀ piece ∈ path, piece = []) : splitLast path = none := by
  have hall : ∀ piece ∈ path.reverse, piece.isEmpty = true := by simpa using h
  rw [splitLast, List.dropWhile_eq_nil_iff.mpr hall]

/-- Either nothing but slashes, or a last piece with trailing slashes. -/
theorem splitLast_cases (path : List Bytes) :
    (∀ piece ∈ path, piece = []) ∨ ∃ front last empties, path = front ++ last :: empties ∧
      last ≠ [] ∧ ∀ piece ∈ empties, piece = [] := by
  by_cases h : ∃ piece ∈ path, (!piece.isEmpty) = true
  · obtain ⟨front, last, empties, heq, hlast, hempties⟩ := TextLines.split_last h
    exact .inr ⟨front, last, empties, heq, by simpa using hlast, by simpa using hempties⟩
  · exact .inl (by simpa using h)

/-! Absolute paths of directories, with a slash at the end -/

/-- The text leads to the directory. -/
def Leads (fs : Files) (text : Bytes) (loc : Location) : Prop :=
  ∃ before, text = before ++ [slash] ∧ text.head? = some slash ∧
    walk fs [] (pieces before) = .ok loc

variable {text name : Bytes} {cwd loc : Location}

theorem Leads.directory (h : Leads fs text loc) : fs.node loc = some .directory := by
  obtain ⟨before, -, -, hwalk⟩ := h
  exact walk_directory fs.root hwalk

theorem Leads.mono (hkeep : ∀ loc, fs.node loc = some .directory → fs'.node loc = some .directory)
    (h : Leads fs text loc) : Leads fs' text loc := by
  obtain ⟨before, htext, hhead, hwalk⟩ := h
  exact ⟨before, htext, hhead, walk_mono hkeep hwalk⟩

theorem Leads.start (h : Leads fs text loc) (more : Bytes) (cwd : Location) :
    startOf cwd (text ++ more) = [] := by
  obtain ⟨before, -, hhead, -⟩ := h
  rw [startOf, List.head?_append, hhead]
  rfl

theorem Leads.pieces_eq (h : Leads fs text loc) (hname : slash ∉ name) :
    ∃ front, pieces (text ++ name) = front ++ [name] ∧ walk fs [] front = .ok loc := by
  obtain ⟨before, rfl, -, hwalk⟩ := h
  refine ⟨pieces before, ?_, hwalk⟩
  rw [List.append_assoc, List.singleton_append, pieces_append hname]

theorem Leads.ne_nil (h : Leads fs text loc) (more : Bytes) : text ++ more ≠ [] := by
  obtain ⟨before, rfl, -, -⟩ := h
  simp

theorem fsEnsureSuffix_name (hname : Ordinary name) (text : Bytes) :
    fsEnsureSuffix (text ++ name) = text ++ name ++ [slash] := by
  have hlast : (text ++ name).getLast? ≠ some slash := by
    rw [List.getLast?_append_of_ne_nil _ hname.nonempty]
    exact fun h => hname.noSlash (List.mem_of_getLast? h)
  rw [fsEnsureSuffix, if_neg hlast]

/-- One directory further down. -/
theorem Leads.extend (h : Leads fs text loc) (hname : Ordinary name)
    (hnode : fs.node (name :: loc) = some .directory) :
    Leads fs (text ++ name ++ [slash]) (name :: loc) := by
  obtain ⟨front, hpieces, hwalk⟩ := h.pieces_eq hname.noSlash
  refine ⟨text ++ name, rfl, ?_, ?_⟩
  · obtain ⟨before, -, hhead, -⟩ := h
    rw [List.append_assoc, List.head?_append, hhead]
    rfl
  · rw [hpieces, walk_append_ok hwalk, walk_cons_ok (enter_ordinary hname hnode), walk_nil]

theorem Leads.self_eq (h : Leads fs text loc) (cwd : Location) :
    text ≠ [] ∧ startOf cwd text = [] ∧
      ∃ front, pieces text = front ++ [[]] ∧ walk fs [] front = .ok loc := by
  have hne := h.ne_nil []
  have hstart := h.start [] cwd
  have hpieces := h.pieces_eq (List.not_mem_nil (a := slash))
  rw [List.append_nil] at hne hstart hpieces
  exact ⟨hne, hstart, hpieces⟩

theorem Leads.chdir_eq (h : Leads fs text loc) (cwd : Location) : chdir fs cwd text = .ok loc := by
  obtain ⟨hne, hstart, front, hpieces, hwalk⟩ := h.self_eq cwd
  rw [chdir, if_neg hne, hstart, hpieces, walk_append_ok hwalk, walk_cons_ok enter_empty, walk_nil]

theorem Leads.lookup_eq (h : Leads fs text loc) (cwd : Location) :
    lookup fs cwd text = .ok .directory := by
  obtain ⟨hne, hstart, front, hpieces, hwalk⟩ := h.self_eq cwd
  rw [lookup, if_neg hne, hstart, hpieces, List.dropLast_concat, hwalk, List.getLastD_concat]
  rfl

/-- stat() on the name of an entry of the working directory. -/
theorem lookup_name (hname : Ordinary name) :
    lookup fs cwd name = (fs.node (name :: cwd)).elim (.error .enoent) .ok := by
  have hpieces : pieces name = [name] := List.splitOn_eq_singleton hname.noSlash
  have hstart : startOf cwd name = cwd := by
    refine if_neg fun hhead => hname.noSlash (List.mem_of_mem_head? hhead)
  have hlast : ¬ (name = [] ∨ name = dot ∨ name = dotdot) := by
    simp [hname.nonempty, hname.not_dot, hname.not_dotdot]
  rw [lookup, if_neg hname.nonempty, hpieces, hstart]
  show (if name = [] ∨ name = dot ∨ name = dotdot then _ else _) = _
  rw [if_neg hlast]
  rfl

theorem Leads.openCreate_eq (h : Leads fs text loc) (hname : Ordinary name)
    (hfree : fs.node (name :: loc) ≠ some .directory) (cwd : Location) :
    openCreate fs cwd (text ++ name) = .ok ⟨name, loc, hname, h.directory, hfree⟩ := by
  have hstart := h.start name cwd
  obtain ⟨front, hpieces, hwalk⟩ := h.pieces_eq hname.noSlash
  have hlast : (pieces (text ++ name)).getLastD [] = name := by
    rw [hpieces, List.getLastD_concat]
  have hfront : walk fs (startOf cwd (text ++ name)) (pieces (text ++ name)).dropLast =
      .ok loc := by
    rw [hstart, hpieces, List.dropLast_concat, hwalk]
  simp only [openCreate, hlast, hfront]
  show (if _ : _ then _ else _) = _
  rw [dif_pos ⟨hname, h.directory, hfree⟩]

/-- What mkdir() takes for the new directory and for what leads to it. -/
theorem Leads.split_eq (h : Leads fs text loc) (hname : Ordinary name) (cwd : Location) :
    ∃ front, splitLast (pieces (text ++ name ++ [slash])) = some (front, name) ∧
      walk fs (startOf cwd (text ++ name ++ [slash])) front = .ok loc := by
  have hstart := h.start (name ++ [slash]) cwd
  obtain ⟨front, hpieces, hwalk⟩ := h.pieces_eq hname.noSlash
  refine ⟨front, ?_, ?_⟩
  · have hslash : text ++ name ++ [slash] = text ++ name ++ slash :: [] := rfl
    rw [hslash, pieces_append List.not_mem_nil, hpieces, List.append_assoc]
    exact splitLast_of_nonempty hname.nonempty (by simp)
  · rw [List.append_assoc, hstart]
    exact hwalk

theorem Leads.mkdir_new (h : Leads fs text loc) (hname : Ordinary name)
    (hnode : fs.node (name :: loc) = none) (cwd : Location) :
    mkdir fs cwd (text ++ name ++ [slash]) =
      .ok (fs.put name loc .directory hname h.directory (Files.free_of_none hnode)) := by
  obtain ⟨front, hsplit, hwalk⟩ := h.split_eq hname cwd
  rw [mkdir_parent hsplit hwalk, dif_pos ⟨hname, h.directory, hnode⟩]

theorem Leads.mkdir_exists (h : Leads fs text loc) (hname : Ordinary name)
    (hnode : fs.node (name :: loc) = some .directory) (cwd : Location) :
    mkdir fs cwd (text ++ name ++ [slash]) = .error .eexist := by
  obtain ⟨front, hsplit, hwalk⟩ := h.split_eq hname cwd
  have htaken : ¬ (Ordinary name ∧ fs.node loc = some .directory ∧
      fs.node (name :: loc) = none) := by
    simp [hnode]
  rw [mkdir_parent hsplit hwalk, dif_neg htaken]

/-- getcwd() gives a path that leads back. -/
theorem fsGetCwd_leads (h : fs.node cwd = some .directory) : Leads fs (fsGetCwd cwd) cwd := by
  induction cwd with
  | nil => exact ⟨[], rfl, rfl, rfl⟩
  | cons name parent ih =>
    have hne : fs.node (name :: parent) ≠ none := by simp [h]
    have hname := fs.names name parent hne
    have hparent := ih (fs.parents name parent hne)
    have htext : fsGetCwd (name :: parent) = fsGetCwd parent ++ name ++ [slash] := by
      cases parent with
      | nil =>
        show fsEnsureSuffix ((slash :: name) ++ []) = _
        rw [List.append_nil]
        exact fsEnsureSuffix_name hname [slash]
      | cons outer parent =>
        have houter := fs.names outer parent (by simp [fs.parents name _ hne])
        have hflat : getcwd (name :: outer :: parent) =
            (getcwd (outer :: parent) ++ [slash]) ++ name := by
          simp [getcwd]
        have hcwd : fsGetCwd (outer :: parent) = getcwd (outer :: parent) ++ [slash] := by
          have hsplit : getcwd (outer :: parent) =
              (parent.reverse.flatMap (slash :: ·) ++ [slash]) ++ outer := by
            simp [getcwd]
          rw [fsGetCwd, hsplit, fsEnsureSuffix_name houter]
        rw [fsGetCwd, hflat, fsEnsureSuffix_name hname, hcwd]
    rw [htext]
    exact hparent.extend hname h

end ChaosVpn.FileSystem
