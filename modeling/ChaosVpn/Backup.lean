import ChaosVpn.FileCopy
import ChaosVpn.FileSystem
import Mathlib.Algebra.Group.Nat.Defs
import Mathlib.Data.List.Induction

/-! fs_cp_r: a directory tree copied over what stands at the destination. All levels of
the recursion share the two path strings and the working directory. -/

namespace ChaosVpn.Backup
open CStrings FileSystem FileCopy

/-- The source as far as it is still to be read, and the destination with its offset. -/
structure OpenFiles where
  unread : Bytes
  buf : Bytes
  destination : Bytes
  offset : Nat

/-- Reads and writes are complete. -/
def fileDescriptors : Descriptors OpenFiles where
  read files :=
    let buf := files.unread.take bufferSize.toNat
    (buf.length, { files with unread := files.unread.drop bufferSize.toNat, buf })
  write files n :=
    let offset := files.offset + n.toNat
    (n, { files with
      destination := files.destination.take files.offset ++ files.buf.take n.toNat ++
        files.destination.drop offset
      offset })

def contentsOf : Option Node → Bytes
  | some (.regular contents) => contents
  | _ => []

/-- Nothing when it does not return. -/
def fsCpFile (fs : Files) (cwd : Location) (src dst : Bytes) : Option (Bool × Files) :=
  match lookup fs cwd src with
  | .error _ => some (false, fs)
  | .ok .directory => none
  | .ok (.regular contents) =>
    match openCreate fs cwd dst with
    | .error _ => some (false, fs)
    | .ok file =>
      let old := contentsOf (fs.node (file.name :: file.parent))
      let filesize := contents.length
      match Loops.loop (copyPass fileDescriptors) (filesize + 1)
          ⟨filesize, ⟨contents, [], old, 0⟩⟩ with
      | some (.returns retval, files) => some (retval, file.put files.destination)
      | _ => none

/-- What the levels of the recursion share. -/
structure CopyTree where
  fs : Files
  cwd : Location
  src : Bytes
  dst : Bytes

def handleEntry (recurse : CopyTree → Option (Bool × CopyTree)) (t : CopyTree) (name : Bytes) :
    Option (Bool × CopyTree) :=
  match lookup t.fs t.cwd name with
  | .error _ => some (true, t)
  | .ok node =>
    if name = dot ∨ name = dotdot then some (true, t)
    else
      match node with
      | .directory =>
        let srcdirlen := t.src.length
        let dstdirlen := t.dst.length
        let src := fsEnsureSuffix (t.src ++ name)
        let dst := fsEnsureSuffix (t.dst ++ name)
        match recurse { t with src, dst } with
        | none => none
        | some (false, t) => some (false, t)
        | some (true, t) =>
          let src := t.src.take srcdirlen
          let dst := t.dst.take dstdirlen
          match chdir t.fs t.cwd src with
          | .error _ => some (false, { t with src, dst })
          | .ok cwd => some (true, { t with cwd, src, dst })
      | .regular _ =>
        let dstdirlen := t.dst.length
        let dst := t.dst ++ name
        match fsCpFile t.fs t.cwd name dst with
        | none => none
        | some (false, fs) => some (false, { t with fs, dst })
        | some (true, fs) => some (true, { t with fs, dst := dst.take dstdirlen })

def handleEntries (recurse : CopyTree → Option (Bool × CopyTree)) (t : CopyTree) :
    List Bytes → Option (Bool × CopyTree)
  | [] => some (true, t)
  | name :: names =>
    match handleEntry recurse t name with
    | none => none
    | some (false, t) => some (false, t)
    | some (true, t) => handleEntries recurse t names

/-- Whether mkdir() fails is not looked at. -/
def afterMkdir (fs : Files) (cwd : Location) (path : Bytes) : Files :=
  match mkdir fs cwd path with
  | .ok fs => fs
  | .error _ => fs

/-- The fuel bounds the depth of the recursion. -/
def handledir (readdir : Location → List Bytes) : Nat → CopyTree → Option (Bool × CopyTree)
  | 0, _ => none
  | fuel + 1, t =>
    match lookup t.fs t.cwd t.src with
    | .error _ => some (false, t)
    | .ok _ =>
      let fs := afterMkdir t.fs t.cwd t.dst
      match chdir fs t.cwd t.src with
      | .error _ => some (false, { t with fs })
      | .ok cwd =>
        match chdir fs cwd t.src with
        | .error _ => some (false, { t with fs, cwd })
        | .ok dir => handleEntries (handledir readdir fuel) { t with fs, cwd } (readdir dir)

def absolute (cwd : Location) (path : Bytes) : Bytes :=
  fsEnsureSuffix (if path.head? = some slash then path else fsGetCwd cwd ++ path)

/-- The file system and the working directory afterwards. A working directory that cannot
be restored is only logged. -/
def fsCpR (readdir : Location → List Bytes) (fuel : Nat) (fs : Files) (cwd : Location)
    (src dest : Bytes) : Option (Bool × Files × Location) :=
  match handledir readdir fuel ⟨fs, cwd, absolute cwd src, absolute cwd dest⟩ with
  | none => none
  | some (retval, t) =>
    match chdir t.fs t.cwd (fsGetCwd cwd) with
    | .error _ => some (retval, t.fs, t.cwd)
    | .ok cwd => some (retval, t.fs, cwd)

def mainCreateBackup (readdir : Location → List Bytes) (fuel : Nat) (fs : Files) (cwd : Location)
    (basePath : Bytes) : Option (Bool × Files × Location) :=
  fsCpR readdir fuel fs cwd basePath (basePath ++ ascii ".old")

/-! What a copy of a subtree is -/

/-- What stands at a place afterwards, from what was at the source and there before. -/
def merged : Option Node → Option Node → Option Node
  | none, old => old
  | some .directory, _ => some .directory
  | some (.regular contents), old =>
    some (.regular (contents ++ (contentsOf old).drop contents.length))

/-- A copy of everything below one place to another, which changes nothing else. -/
structure Copied (fs fs' : Files) (source destination : Location) : Prop where
  inside : ∀ below, fs'.node (below ++ destination) =
    merged (fs.node (below ++ source)) (fs.node (below ++ destination))
  outside : ∀ loc, ¬ destination <:+ loc → fs'.node loc = fs.node loc

/-- A source of finite depth, listed by readdir(), no part of which has its copy inside the
source, and a destination where directories and files do not stand in each other's place. -/
structure Copyable (readdir : Location → List Bytes) (fs : Files) (source destination : Location)
    (depth : Nat) : Prop where
  finite : ∀ below, fs.node (below ++ source) ≠ none → below.length ≤ depth
  sizes : ∀ below contents, fs.node (below ++ source) = some (.regular contents) →
    contents.length < 2 ^ 63
  listed : ∀ below name, fs.node (name :: below ++ source) ≠ none →
    name ∈ readdir (below ++ source)
  nodup : ∀ below, fs.node (below ++ source) = some .directory → (readdir (below ++ source)).Nodup
  entries : ∀ below, fs.node (below ++ source) = some .directory →
    ∀ name ∈ readdir (below ++ source),
      name = dot ∨ name = dotdot ∨ fs.node (name :: below ++ source) ≠ none
  apart : ∀ below, fs.node (below ++ source) ≠ none → ¬ source <:+ below ++ destination
  kinds : ∀ below node old, fs.node (below ++ source) = some node →
    fs.node (below ++ destination) = some old → (node = .directory ↔ old = .directory)

structure Setting where
  fs : Files
  cwd : Location
  src : Bytes
  dest : Bytes
  readdir : Location → List Bytes
  source : Location
  destination : Location
  depth : Nat
  workingDirectory : fs.node cwd = some .directory
  leadsSource : Leads fs (absolute cwd src) source
  leadsDestination : Leads (afterMkdir fs cwd (absolute cwd dest)) (absolute cwd dest) destination
  copyable : Copyable readdir fs source destination depth

/-- Success, with every regular file at its place and the working directory as before. -/
def Faithful (st : Setting) : Prop :=
  ∀ fuel > st.depth, ∃ fs',
    fsCpR st.readdir fuel st.fs st.cwd st.src st.dest = some (true, fs', st.cwd) ∧
      ∀ below contents, st.fs.node (below ++ st.source) = some (.regular contents) →
        fs'.node (below ++ st.destination) = some (.regular contents)

/-- No older file is longer than the one that is copied over it. -/
def NoneLonger (st : Setting) : Prop :=
  ∀ below contents old, st.fs.node (below ++ st.source) = some (.regular contents) →
    st.fs.node (below ++ st.destination) = some (.regular old) → old.length ≤ contents.length

/-! One file -/

/-- One buffer full goes from the source to the destination. -/
theorem copyPass_chunk {unread chunk rest buf done old : Bytes}
    (hchunk : unread.take bufferSize.toNat = chunk) (hrest : unread.drop bufferSize.toNat = rest)
    (hpos : 0 < unread.length) (hsize : unread.length < 2 ^ 63) :
    copyPass fileDescriptors ⟨unread.length, ⟨unread, buf, done ++ old, done.length⟩⟩ =
      .inl ⟨rest.length,
        ⟨rest, chunk, (done ++ chunk) ++ old.drop chunk.length, (done ++ chunk).length⟩⟩ := by
  have hlength : chunk.length + rest.length = unread.length := by
    rw [← hchunk, ← hrest, ← List.length_append, List.take_append_drop]
  have hleft : (unread.length : Int) - chunk.length = rest.length := by omega
  have hfits : (rest.length : Int) < 2 ^ 63 := by omega
  have hwritten : (done ++ old).take done.length ++ chunk.take chunk.length ++
      (done ++ old).drop (done.length + chunk.length) =
        done ++ chunk ++ old.drop chunk.length := by
    rw [List.take_left, List.take_length, List.drop_append]
    simp
  have hread : fileDescriptors.read ⟨unread, buf, done ++ old, done.length⟩ =
      ((chunk.length : Int), ⟨rest, chunk, done ++ old, done.length⟩) := by
    rw [← hchunk, ← hrest]
    rfl
  have hwrite : fileDescriptors.write ⟨rest, chunk, done ++ old, done.length⟩ chunk.length =
      ((chunk.length : Int),
        ⟨rest, chunk, done ++ chunk ++ old.drop chunk.length, (done ++ chunk).length⟩) := by
    rw [← hwritten, List.length_append]
    rfl
  have hmore : (unread.length : Int) > 0 := by omega
  simp only [copyPass, hread, hwrite, if_pos hmore, hleft, if_pos hfits]
  exact if_neg (not_not.mpr rfl)

/-- The rest of the source is written over what is behind the offset. -/
theorem copyPass_loop (fuel : Nat) (unread buf done old : Bytes) (hfuel : unread.length < fuel)
    (hsize : unread.length < 2 ^ 63) :
    ∃ files, Loops.loop (copyPass fileDescriptors) fuel
        ⟨unread.length, ⟨unread, buf, done ++ old, done.length⟩⟩ = some (.returns true, files) ∧
      files.destination = done ++ unread ++ old.drop unread.length := by
  induction fuel generalizing unread buf done old with
  | zero => omega
  | succ fuel ih =>
    by_cases hempty : unread = []
    · subst hempty
      exact ⟨⟨[], buf, done ++ old, done.length⟩, by simp [Loops.loop, copyPass], by simp⟩
    · have hpos : 0 < unread.length := List.length_pos_iff.mpr hempty
      obtain ⟨chunk, hchunk⟩ : ∃ chunk, unread.take bufferSize.toNat = chunk := ⟨_, rfl⟩
      obtain ⟨rest, hrest⟩ : ∃ rest, unread.drop bufferSize.toNat = rest := ⟨_, rfl⟩
      have hwhole : chunk ++ rest = unread := by
        rw [← hchunk, ← hrest, List.take_append_drop]
      have hlength : chunk.length + rest.length = unread.length := by
        rw [← hwhole, List.length_append]
      have hread : 0 < chunk.length := by
        rw [← hchunk, List.length_take]
        exact Nat.lt_min.mpr ⟨by decide, hpos⟩
      obtain ⟨files, hloop, hdest⟩ := ih rest chunk (done ++ chunk) (old.drop chunk.length)
        (by omega) (by omega)
      refine ⟨files, ?_, ?_⟩
      · rw [Loops.loop, copyPass_chunk hchunk hrest hpos hsize]
        exact hloop
      · rw [hdest, List.drop_drop, hlength, List.append_assoc done, hwhole]

variable {fs fs' : Files} {cwd loc target : Location} {src dst name contents : Bytes}
  {readdir : Location → List Bytes} {depth : Nat}

/-- The copy of a file from the working directory, over what was there. -/
theorem fsCpFile_eq (hname : Ordinary name)
    (hfile : fs.node (name :: loc) = some (.regular contents)) (hsize : contents.length < 2 ^ 63)
    (hdst : Leads fs dst target) (hfree : fs.node (name :: target) ≠ some .directory) :
    fsCpFile fs loc name (dst ++ name) = some (true,
      fs.put name target (.regular (contents ++
        (contentsOf (fs.node (name :: target))).drop contents.length))
        hname hdst.directory hfree) := by
  have hlookup : lookup fs loc name = .ok (.regular contents) := by
    rw [lookup_name hname, hfile]
    rfl
  obtain ⟨files, hloop, hdest⟩ := copyPass_loop (contents.length + 1) contents [] []
    (contentsOf (fs.node (name :: target))) (Nat.lt_succ_self _) hsize
  have hloop' : Loops.loop (copyPass fileDescriptors) (contents.length + 1)
      ⟨contents.length, ⟨contents, [], contentsOf (fs.node (name :: target)), 0⟩⟩ =
        some (.returns true, files) := hloop
  rw [List.nil_append] at hdest
  simp only [fsCpFile, hlookup, hdst.openCreate_eq hname hfree, hloop', hdest, Writable.put]

/-! The directory at the destination -/

theorem afterMkdir_cases (fs : Files) (cwd : Location) (path : Bytes) :
    afterMkdir fs cwd path = fs ∨
      ∃ front name parent, splitLast (pieces path) = some (front, name) ∧
        walk fs (startOf cwd path) front = .ok parent ∧ fs.node (name :: parent) = none ∧
        ∃ hname hparent hfree,
          afterMkdir fs cwd path = fs.put name parent .directory hname hparent hfree := by
  unfold afterMkdir
  cases hmkdir : mkdir fs cwd path with
  | error e => exact .inl rfl
  | ok made =>
    right
    cases hsplit : splitLast (pieces path) with
    | none => simp [mkdir, hsplit] at hmkdir
    | some cut =>
      obtain ⟨front, name⟩ := cut
      cases hwalk : walk fs (startOf cwd path) front with
      | error e => simp [mkdir_error hsplit hwalk] at hmkdir
      | ok parent =>
        rw [mkdir_parent hsplit hwalk] at hmkdir
        split at hmkdir
        · rename_i hnew
          exact ⟨front, name, parent, rfl, hwalk, hnew.2.2, hnew.1, hnew.2.1,
            Files.free_of_none hnew.2.2, (Except.ok.inj hmkdir).symm⟩
        · cases hmkdir

/-- Directories stay when something is put in a free place. -/
theorem put_keeps {node : Node} (hname : Ordinary name) (hparent : fs.node loc = some .directory)
    (hfree : fs.node (name :: loc) ≠ some .directory) :
    ∀ place, fs.node place = some .directory →
      (fs.put name loc node hname hparent hfree).node place = some .directory := by
  intro place hplace
  have hne : place ≠ name :: loc := by
    rintro rfl
    exact hfree hplace
  rw [Files.put_of_ne _ _ _ hne, hplace]

theorem afterMkdir_keeps (fs : Files) (cwd : Location) (path : Bytes) :
    ∀ place, fs.node place = some .directory →
      (afterMkdir fs cwd path).node place = some .directory := by
  intro place hplace
  rcases afterMkdir_cases fs cwd path with hsame | ⟨_, _, _, -, -, -, hname, hparent, hfree, hmade⟩
  · rwa [hsame]
  · rw [hmade]
    exact put_keeps hname hparent hfree place hplace

/-- What is new behind mkdir() is the directory that its path leads to. -/
theorem afterMkdir_node (h : Leads (afterMkdir fs cwd dst) dst target) {place : Location}
    (hplace : place ≠ target) : (afterMkdir fs cwd dst).node place = fs.node place := by
  rcases afterMkdir_cases fs cwd dst with
    hsame | ⟨front, name, parent, hsplit, hwalk, -, hname, hparent, hfree, hmade⟩
  · rw [hsame]
  · have hkeeps := afterMkdir_keeps fs cwd dst
    have hstart := h.start [] cwd
    rw [List.append_nil] at hstart
    obtain ⟨before, hdst, -, hbefore⟩ := h
    have hpieces : pieces dst = pieces before ++ [[]] := by
      rw [hdst]
      exact pieces_append List.not_mem_nil
    have htarget : walk (afterMkdir fs cwd dst) [] (pieces dst) = .ok target := by
      rw [hpieces, walk_append_ok hbefore, walk_cons_ok enter_empty, walk_nil]
    rcases splitLast_cases (pieces dst) with
      hempties | ⟨front', last, empties, heq, hlast, hempties⟩
    · rw [splitLast_of_empties hempties] at hsplit
      cases hsplit
    · rw [heq, splitLast_of_nonempty hlast hempties] at hsplit
      obtain ⟨rfl, rfl⟩ := Prod.mk.inj (Option.some.inj hsplit)
      rw [hstart] at hwalk
      have hnew : (afterMkdir fs cwd dst).node (last :: parent) = some .directory := by
        rw [hmade, Files.put_self]
      rw [heq, walk_append_ok (walk_mono hkeeps hwalk),
        walk_cons_ok (enter_ordinary hname hnew), walk_empties hempties] at htarget
      rw [hmade, Files.put_of_ne _ _ _ (Except.ok.inj htarget ▸ hplace)]

theorem leads_afterMkdir (h : Leads fs dst target) (hname : Ordinary name)
    (hkind : ∀ old, fs.node (name :: target) = some old → old = .directory) (cwd : Location) :
    Leads (afterMkdir fs cwd (dst ++ name ++ [slash])) (dst ++ name ++ [slash])
      (name :: target) := by
  cases hnode : fs.node (name :: target) with
  | none =>
    have hmade : afterMkdir fs cwd (dst ++ name ++ [slash]) =
        fs.put name target .directory hname h.directory (Files.free_of_none hnode) := by
      rw [afterMkdir, h.mkdir_new hname hnode]
    rw [hmade]
    exact (h.mono (put_keeps _ _ _)).extend hname (Files.put_self _ _ _)
  | some old =>
    obtain rfl := hkind old hnode
    have hmade : afterMkdir fs cwd (dst ++ name ++ [slash]) = fs := by
      rw [afterMkdir, h.mkdir_exists hname hnode]
    rw [hmade]
    exact h.extend hname hnode

/-! What stays the same while parts are copied -/

theorem merged_kind {node new : Node} {old : Option Node} (h : merged (some node) old = some new) :
    node = .directory ↔ new = .directory := by
  cases node with
  | directory => simp [← Option.some.inj h]
  | regular contents => simp [← Option.some.inj h]

/-- The same source, and a destination that still fits. -/
theorem Copyable.congr (h : Copyable readdir fs loc target depth)
    (hsource : ∀ below, fs'.node (below ++ loc) = fs.node (below ++ loc))
    (hkinds : ∀ below node old, fs.node (below ++ loc) = some node →
      fs'.node (below ++ target) = some old → (node = .directory ↔ old = .directory)) :
    Copyable readdir fs' loc target depth where
  finite below hne := h.finite below (hsource below ▸ hne)
  sizes below contents hfile := h.sizes below contents (hsource below ▸ hfile)
  listed below name hne := h.listed below name (hsource (name :: below) ▸ hne)
  nodup below hdir := h.nodup below (hsource below ▸ hdir)
  entries below hdir name hmem := by
    have hsame := hsource (name :: below)
    rw [hsame]
    exact h.entries below (hsource below ▸ hdir) name hmem
  apart below hne := h.apart below (hsource below ▸ hne)
  kinds below node old hnode hold := hkinds below node old (hsource below ▸ hnode) hold

/-- One level down. -/
theorem Copyable.below (h : Copyable readdir fs loc target (depth + 1)) (name : Bytes) :
    Copyable readdir fs (name :: loc) (name :: target) depth where
  finite below hne := by
    rw [List.append_cons] at hne
    have := h.finite _ hne
    rw [List.length_append, List.length_singleton] at this
    omega
  sizes below contents hfile := by
    rw [List.append_cons] at hfile
    exact h.sizes _ contents hfile
  listed below n hne := by
    rw [List.append_cons] at hne ⊢
    exact h.listed _ n hne
  nodup below hdir := by
    rw [List.append_cons] at hdir ⊢
    exact h.nodup _ hdir
  entries below hdir n hmem := by
    rw [List.append_cons] at hdir hmem ⊢
    exact h.entries _ hdir n hmem
  apart below hne hsuffix := by
    rw [List.append_cons] at hne hsuffix
    exact h.apart _ hne ((List.suffix_cons name loc).trans hsuffix)
  kinds below node old hnode hold := by
    rw [List.append_cons] at hnode hold
    exact h.kinds _ node old hnode hold

/-- Copying a part leaves the source alone. -/
theorem Copied.source_same {part : List Bytes}
    (hcopied : Copied fs fs' (part ++ loc) (part ++ target))
    (h : Copyable readdir fs loc target depth) (below : List Bytes) :
    fs'.node (below ++ loc) = fs.node (below ++ loc) := by
  by_cases hinside : part ++ target <:+ below ++ loc
  · obtain ⟨front, hfront⟩ := hinside
    have hnone : fs.node (front ++ (part ++ loc)) = none := by
      by_contra hne
      rw [← List.append_assoc] at hne hfront
      exact h.apart _ hne (hfront ▸ List.suffix_append below loc)
    rw [← hfront, hcopied.inside, hnone]
    rfl
  · exact hcopied.outside _ hinside

theorem Copied.kinds {part below : List Bytes} {node new : Node}
    (hcopied : Copied fs fs' (part ++ loc) (part ++ target))
    (h : Copyable readdir fs loc target depth) (hnode : fs.node (below ++ loc) = some node)
    (hnew : fs'.node (below ++ target) = some new) : node = .directory ↔ new = .directory := by
  by_cases hinside : part ++ target <:+ below ++ target
  · obtain ⟨front, hfront⟩ := hinside
    rw [← List.append_assoc] at hfront
    obtain rfl := List.append_cancel_right hfront
    rw [List.append_assoc, hcopied.inside, ← List.append_assoc, hnode] at hnew
    exact merged_kind hnew
  · rw [hcopied.outside _ hinside] at hnew
    exact h.kinds below node new hnode hnew

theorem Copied.copyable {part : List Bytes}
    (hcopied : Copied fs fs' (part ++ loc) (part ++ target))
    (h : Copyable readdir fs loc target depth) : Copyable readdir fs' loc target depth :=
  h.congr (hcopied.source_same h) fun _ _ _ hnode hnew => hcopied.kinds h hnode hnew

theorem Copied.keeps {part : List Bytes} (hcopied : Copied fs fs' (part ++ loc) (part ++ target))
    (h : Copyable readdir fs loc target depth) :
    ∀ place, fs.node place = some .directory → fs'.node place = some .directory := by
  intro place hplace
  by_cases hinside : part ++ target <:+ place
  · obtain ⟨front, rfl⟩ := hinside
    rw [hcopied.inside, hplace]
    cases hnode : fs.node (front ++ (part ++ loc)) with
    | none => rfl
    | some node =>
      rw [← List.append_assoc] at hnode hplace
      rw [(h.kinds _ node .directory hnode hplace).mpr rfl]
      rfl
  · rw [hcopied.outside _ hinside, hplace]

/-! The recursion -/

/-- The recursion copies, and gives the path strings back as they were. -/
def Copies (readdir : Location → List Bytes) (recurse : CopyTree → Option (Bool × CopyTree))
    (depth : Nat) : Prop :=
  ∀ fs loc target cwd src dst, Copyable readdir fs loc target depth → Leads fs src loc →
    Leads (afterMkdir fs cwd dst) dst target →
      ∃ fs', recurse ⟨fs, cwd, src, dst⟩ = some (true, ⟨fs', loc, src, dst⟩) ∧
        Copied fs fs' loc target

variable {recurse : CopyTree → Option (Bool × CopyTree)}

theorem handleEntry_directory (hrec : ∀ below, depth = below + 1 → Copies readdir recurse below)
    (h : Copyable readdir fs loc target depth)
    (hsrc : Leads fs src loc) (hdst : Leads fs dst target)
    (hname : Ordinary name) (hnode : fs.node (name :: loc) = some .directory) :
    ∃ fs', handleEntry recurse ⟨fs, loc, src, dst⟩ name = some (true, ⟨fs', loc, src, dst⟩) ∧
      Copied fs fs' (name :: loc) (name :: target) := by
  have hpos : 1 ≤ depth := h.finite [name] (by simp [hnode])
  obtain ⟨below, rfl⟩ : ∃ below, depth = below + 1 := ⟨depth - 1, by omega⟩
  have hkind : ∀ old, fs.node (name :: target) = some old → old = .directory :=
    fun old hold => (h.kinds [name] .directory old hnode hold).mp rfl
  obtain ⟨fs', hcopy, hcopied⟩ := hrec below rfl fs (name :: loc) (name :: target) loc
    (src ++ name ++ [slash]) (dst ++ name ++ [slash]) (h.below name) (hsrc.extend hname hnode)
    (leads_afterMkdir hdst hname hkind loc)
  refine ⟨fs', ?_, hcopied⟩
  have hlookup : lookup fs loc name = .ok .directory := by
    rw [lookup_name hname, hnode]
    rfl
  have hnodot : ¬ (name = dot ∨ name = dotdot) := by simp [hname.not_dot, hname.not_dotdot]
  have hsame : Copied fs fs' ([name] ++ loc) ([name] ++ target) := hcopied
  have hback := (hsrc.mono (hsame.keeps h)).chdir_eq (name :: loc)
  have hcut (text : Bytes) : (text ++ name ++ [slash]).take text.length = text := by
    rw [List.append_assoc, List.take_left]
  simp only [handleEntry, hlookup, if_neg hnodot, fsEnsureSuffix_name hname, hcopy, hcut, hback]

/-- Nothing is below a regular file. -/
theorem below_regular (h : fs.node loc = some (.regular contents)) {below : List Bytes}
    (hbelow : below ≠ []) : fs.node (below ++ loc) = none := by
  obtain ⟨front, name, rfl⟩ : ∃ front name, below = front ++ [name] :=
    ⟨_, _, (List.dropLast_append_getLast hbelow).symm⟩
  have hchild : fs.node (name :: loc) = none := by
    by_contra hne
    cases h.symm.trans (fs.parents name loc hne)
  rw [List.append_assoc]
  exact node_below_missing hchild front

theorem copied_file (hname : Ordinary name) (htarget : fs.node target = some .directory)
    (hfree : fs.node (name :: target) ≠ some .directory)
    (hnode : fs.node (name :: loc) = some (.regular contents)) :
    Copied fs (fs.put name target (.regular (contents ++
        (contentsOf (fs.node (name :: target))).drop contents.length)) hname htarget hfree)
      (name :: loc) (name :: target) where
  inside below := by
    by_cases hbelow : below = []
    · subst hbelow
      rw [List.nil_append, List.nil_append, Files.put_self, hnode]
      rfl
    · have hne : below ++ name :: target ≠ name :: target := fun heq =>
        hbelow (List.append_cancel_right (heq.trans (List.nil_append _).symm))
      rw [Files.put_of_ne _ _ _ hne, below_regular hnode hbelow]
      rfl
  outside place hplace := Files.put_of_ne _ _ _ fun heq => hplace (heq ▸ List.suffix_refl _)

theorem handleEntry_regular (h : Copyable readdir fs loc target depth) (hdst : Leads fs dst target)
    (hname : Ordinary name) (hnode : fs.node (name :: loc) = some (.regular contents)) :
    ∃ fs', handleEntry recurse ⟨fs, loc, src, dst⟩ name = some (true, ⟨fs', loc, src, dst⟩) ∧
      Copied fs fs' (name :: loc) (name :: target) := by
  have hfree : fs.node (name :: target) ≠ some .directory := by
    intro hdir
    cases (h.kinds [name] (.regular contents) .directory hnode hdir).mpr rfl
  have hlookup : lookup fs loc name = .ok (.regular contents) := by
    rw [lookup_name hname, hnode]
    rfl
  have hnodot : ¬ (name = dot ∨ name = dotdot) := by simp [hname.not_dot, hname.not_dotdot]
  refine ⟨_, ?_, copied_file hname hdst.directory hfree hnode⟩
  simp only [handleEntry, hlookup, if_neg hnodot,
    fsCpFile_eq hname hnode (h.sizes [name] contents hnode) hdst hfree, List.take_left]

/-- Nothing is named like the directory itself or the one above it. -/
theorem node_dot (hname : name = dot ∨ name = dotdot) : fs.node (name :: loc) = none := by
  by_contra hne
  have hordinary := fs.names name loc hne
  exact hname.elim hordinary.not_dot hordinary.not_dotdot

/-- One entry that readdir() lists. -/
theorem handleEntry_copies (hrec : ∀ below, depth = below + 1 → Copies readdir recurse below)
    (h : Copyable readdir fs loc target depth)
    (hsrc : Leads fs src loc) (hdst : Leads fs dst target)
    (hname : name = dot ∨ name = dotdot ∨ fs.node (name :: loc) ≠ none) :
    ∃ fs', handleEntry recurse ⟨fs, loc, src, dst⟩ name = some (true, ⟨fs', loc, src, dst⟩) ∧
      Copied fs fs' (name :: loc) (name :: target) := by
  by_cases hdot : name = dot ∨ name = dotdot
  · have hskip : handleEntry recurse ⟨fs, loc, src, dst⟩ name =
        some (true, ⟨fs, loc, src, dst⟩) := by
      cases hlookup : lookup fs loc name with
      | error e => simp only [handleEntry, hlookup]
      | ok node => simp only [handleEntry, hlookup, if_pos hdot]
    refine ⟨fs, hskip, ⟨fun below => ?_, fun _ _ => rfl⟩⟩
    have hnone : fs.node (below ++ name :: loc) = none := node_below_missing (node_dot hdot) below
    rw [hnone]
    rfl
  · have hne : fs.node (name :: loc) ≠ none := by
      simpa only [← or_assoc, hdot, false_or] using hname
    have hordinary := fs.names name loc hne
    cases hnode : fs.node (name :: loc) with
    | none => exact absurd hnode hne
    | some node =>
      cases node with
      | directory => exact handleEntry_directory hrec h hsrc hdst hordinary hnode
      | regular contents => exact handleEntry_regular h hdst hordinary hnode

/-- Places below entries of different names are different. -/
theorem not_below_other {other : Bytes} {below : List Bytes} (h : other ≠ name) :
    ¬ other :: loc <:+ below ++ name :: loc := by
  rintro ⟨front, hfront⟩
  rw [List.append_cons, List.append_cons below] at hfront
  have hlast := List.append_cancel_right hfront
  exact h (List.singleton_inj.mp (List.append_inj' hlast rfl).2)

/-- What is copied when some entries have had their turn. -/
structure CopiedEntries (fs fs' : Files) (loc target : Location) (names : List Bytes) : Prop where
  inside : ∀ name ∈ names, ∀ below, fs'.node (below ++ name :: target) =
    merged (fs.node (below ++ name :: loc)) (fs.node (below ++ name :: target))
  outside : ∀ place, (∀ name ∈ names, ¬ name :: target <:+ place) → fs'.node place = fs.node place

theorem handleEntries_copies {names : List Bytes}
    (hrec : ∀ below, depth = below + 1 → Copies readdir recurse below)
    (h : Copyable readdir fs loc target depth)
    (hsrc : Leads fs src loc) (hdst : Leads fs dst target)
    (hnodup : names.Nodup)
    (hnames : ∀ name ∈ names, name = dot ∨ name = dotdot ∨ fs.node (name :: loc) ≠ none) :
    ∃ fs', handleEntries recurse ⟨fs, loc, src, dst⟩ names = some (true, ⟨fs', loc, src, dst⟩) ∧
      CopiedEntries fs fs' loc target names := by
  induction names generalizing fs with
  | nil => exact ⟨fs, rfl, ⟨by simp, fun _ _ => rfl⟩⟩
  | cons name names ih =>
    obtain ⟨hnew, hnodup⟩ := List.nodup_cons.mp hnodup
    obtain ⟨fs₁, hentry, hfirst⟩ := handleEntry_copies hrec h hsrc hdst (hnames name (by simp))
    have hpart : Copied fs fs₁ ([name] ++ loc) ([name] ++ target) := hfirst
    have hsame := hpart.source_same h
    have hkeeps := hpart.keeps h
    obtain ⟨fs', hentries, hrest⟩ := ih (hpart.copyable h) (hsrc.mono hkeeps) (hdst.mono hkeeps)
      hnodup fun n hn => by
        have hlisted : fs₁.node (n :: loc) = fs.node (n :: loc) := hsame [n]
        rw [hlisted]
        exact hnames n (by simp [hn])
    refine ⟨fs', ?_, ⟨fun n hn below => ?_, fun place hplace => ?_⟩⟩
    · rw [handleEntries, hentry]
      exact hentries
    · rcases List.mem_cons.mp hn with rfl | hn
      · have hlater : ∀ other ∈ names, ¬ other :: target <:+ below ++ n :: target :=
          fun other hother => not_below_other fun heq => hnew (heq ▸ hother)
        rw [hrest.outside _ hlater, hfirst.inside]
      · have hother : ¬ name :: target <:+ below ++ n :: target :=
          not_below_other fun heq => hnew (heq ▸ hn)
        have hsource := hsame (below ++ [n])
        rw [← List.append_cons] at hsource
        rw [hrest.inside n hn, hfirst.outside _ hother, hsource]
    · rw [hrest.outside place fun n hn => hplace n (by simp [hn]),
        hfirst.outside place (hplace name (by simp))]

/-- Everything that is in the source directory has had its turn. -/
theorem CopiedEntries.copied {fs₁ : Files} {names : List Bytes}
    (h : CopiedEntries fs₁ fs' loc target names) (htarget : fs₁.node target = some .directory)
    (hmade : ∀ place ≠ target, fs₁.node place = fs.node place)
    (hsource : fs.node loc = some .directory) (hne : ∀ below, below ++ loc ≠ target)
    (hlisted : ∀ name, fs.node (name :: loc) ≠ none → name ∈ names) :
    Copied fs fs' loc target where
  inside below := by
    rcases List.eq_nil_or_concat below with rfl | ⟨below, name, rfl⟩
    · have hentries : ∀ name ∈ names, ¬ name :: target <:+ target :=
        fun name _ hsuffix => Nat.not_succ_le_self _ hsuffix.length_le
      rw [List.nil_append, List.nil_append, hsource, h.outside target hentries, htarget]
      rfl
    · have hother : below ++ name :: target ≠ target := fun heq => by
        have := congrArg List.length heq
        rw [List.length_append, List.length_cons] at this
        omega
      rw [List.concat_eq_append, ← List.append_cons, ← List.append_cons]
      by_cases hmem : name ∈ names
      · rw [h.inside name hmem, hmade _ hother, List.append_cons, hmade _ (hne _)]
      · have hnone : fs.node (name :: loc) = none := by
          by_contra hnode
          exact hmem (hlisted name hnode)
        have hentries : ∀ n ∈ names, ¬ n :: target <:+ below ++ name :: target :=
          fun n hn => not_below_other fun heq => hmem (heq ▸ hn)
        rw [h.outside _ hentries, hmade _ hother, node_below_missing hnone]
        rfl
  outside place hplace := by
    have hentries : ∀ name ∈ names, ¬ name :: target <:+ place :=
      fun name _ hsuffix => hplace ((List.suffix_cons name target).trans hsuffix)
    rw [h.outside place hentries]
    refine hmade place ?_
    rintro rfl
    exact hplace (List.suffix_refl _)

/-- A directory at its own place in the recursion. -/
theorem handledir_step {fuel : Nat}
    (hrec : ∀ below, depth = below + 1 → Copies readdir (handledir readdir fuel) below) :
    Copies readdir (handledir readdir (fuel + 1)) depth := by
  intro fs loc target cwd src dst h hsrc hdst
  have hloc := hsrc.directory
  have htarget := hdst.directory
  have hapart : ∀ below, below ++ loc ≠ target := by
    rintro below rfl
    exact h.apart [] (by simp [hloc]) (List.suffix_append below loc)
  have hmade : ∀ place ≠ target, (afterMkdir fs cwd dst).node place = fs.node place :=
    fun place hplace => afterMkdir_node hdst hplace
  have hsource : ∀ below, (afterMkdir fs cwd dst).node (below ++ loc) = fs.node (below ++ loc) :=
    fun below => hmade _ (hapart below)
  have hready : Copyable readdir (afterMkdir fs cwd dst) loc target depth := by
    refine h.congr hsource fun below node old hnode hold => ?_
    by_cases hbelow : below = []
    · subst hbelow
      rw [List.nil_append] at hnode hold
      rw [← Option.some.inj (hloc.symm.trans hnode), ← Option.some.inj (htarget.symm.trans hold)]
    · have hother : below ++ target ≠ target := fun heq =>
        hbelow (List.append_cancel_right (heq.trans (List.nil_append _).symm))
      rw [hmade _ hother] at hold
      exact h.kinds below node old hnode hold
  have hsrc' := hsrc.mono (afterMkdir_keeps fs cwd dst)
  obtain ⟨fs', hentries, hcopied⟩ := handleEntries_copies hrec hready hsrc' hdst
    (hready.nodup [] hsrc'.directory) (hready.entries [] hsrc'.directory)
  refine ⟨fs', ?_, hcopied.copied htarget hmade hloc hapart (h.listed [])⟩
  simp only [handledir, hsrc.lookup_eq, hsrc'.chdir_eq]
  exact hentries

theorem handledir_copies (readdir : Location → List Bytes) (depth fuel : Nat)
    (hfuel : depth < fuel) : Copies readdir (handledir readdir fuel) depth := by
  induction fuel generalizing depth with
  | zero => omega
  | succ fuel ih => exact handledir_step fun below hbelow => ih below (by omega)

/-! The whole copy -/

theorem fsCpR_copies (st : Setting) {fuel : Nat} (hfuel : st.depth < fuel) :
    ∃ fs', fsCpR st.readdir fuel st.fs st.cwd st.src st.dest = some (true, fs', st.cwd) ∧
      Copied st.fs fs' st.source st.destination := by
  obtain ⟨fs', hcopy, hcopied⟩ := handledir_copies st.readdir st.depth fuel hfuel st.fs st.source
    st.destination st.cwd _ _ st.copyable st.leadsSource st.leadsDestination
  have hwhole : Copied st.fs fs' ([] ++ st.source) ([] ++ st.destination) := hcopied
  have hcwd := hwhole.keeps st.copyable st.cwd st.workingDirectory
  refine ⟨fs', ?_, hcopied⟩
  simp only [fsCpR, hcopy, (fsGetCwd_leads hcwd).chdir_eq]

/-- open() without O_TRUNC leaves the end of a longer file behind the copy. -/
theorem faithful_iff (st : Setting) : Faithful st ↔ NoneLonger st := by
  constructor
  · intro h below contents old hnew hold
    obtain ⟨fs', hcopy, hfiles⟩ := h (st.depth + 1) (Nat.lt_succ_self _)
    obtain ⟨fs'', hcopy', hcopied⟩ := fsCpR_copies st (Nat.lt_succ_self _)
    obtain rfl : fs' = fs'' := by simpa using hcopy.symm.trans hcopy'
    have hfile := hcopied.inside below
    rw [hfiles below contents hnew, hnew, hold] at hfile
    have hsame : contents ++ old.drop contents.length = contents := by
      simpa [merged, contentsOf] using hfile.symm
    simpa using hsame
  · intro h fuel hfuel
    obtain ⟨fs', hcopy, hcopied⟩ := fsCpR_copies st hfuel
    refine ⟨fs', hcopy, fun below contents hnew => ?_⟩
    have hlonger :
        (contentsOf (st.fs.node (below ++ st.destination))).length ≤ contents.length := by
      cases hold : st.fs.node (below ++ st.destination) with
      | none => exact Nat.zero_le _
      | some node =>
        cases node with
        | directory => exact Nat.zero_le _
        | regular old => exact h below contents old hnew hold
    rw [hcopied.inside, hnew, merged, List.drop_eq_nil_of_le hlonger, List.append_nil]

/-! A configuration directory whose backup has an older file that is longer -/

def vpn : Bytes := ascii "vpn"
def vpnOld : Bytes := ascii "vpn.old"
def tincConf : Bytes := ascii "tinc.conf"

def backupNode (loc : Location) : Option Node :=
  if loc = [] ∨ loc = [vpn] ∨ loc = [vpnOld] then some .directory
  else if loc = [tincConf, vpn] then some (.regular (ascii "x"))
  else if loc = [tincConf, vpnOld] then some (.regular (ascii "yy"))
  else none

theorem backupNode_some {node : Node} (h : backupNode loc = some node) :
    loc = [] ∨ loc = [vpn] ∨ loc = [vpnOld] ∨ loc = [tincConf, vpn] ∨ loc = [tincConf, vpnOld] := by
  by_contra hnone
  obtain ⟨hroot, hvpn, hold, hconf, hconfOld⟩ := by simpa only [not_or] using hnone
  simp [backupNode, hroot, hvpn, hold, hconf, hconfOld] at h

def backupFiles : Files where
  node := backupNode
  root := rfl
  parents name parent h := by
    obtain ⟨node, hnode⟩ := Option.ne_none_iff_exists'.mp h
    rcases backupNode_some hnode with h | h | h | h | h
    · cases h
    all_goals
      obtain ⟨-, rfl⟩ := List.cons.inj h
      decide
  names name parent h := by
    obtain ⟨node, hnode⟩ := Option.ne_none_iff_exists'.mp h
    rcases backupNode_some hnode with h | h | h | h | h
    · cases h
    all_goals
      obtain ⟨rfl, -⟩ := List.cons.inj h
      decide

def backupListing (loc : Location) : List Bytes :=
  if loc = [vpn] then [dot, dotdot, tincConf] else []

theorem backupNode_below {below : List Bytes} {node : Node}
    (hname : name = vpn ∨ name = vpnOld) (h : backupNode (below ++ [name]) = some node) :
    below = [] ∧ node = .directory ∨
      below = [tincConf] ∧ ∃ contents, node = .regular contents ∧ contents.length < 2 ^ 63 := by
  rcases below with _ | ⟨a, _ | ⟨b, below⟩⟩
  · have hdir : backupNode [name] = some .directory := by rcases hname with rfl | rfl <;> rfl
    exact .inl ⟨rfl, (Option.some.inj (hdir.symm.trans h)).symm⟩
  · obtain rfl : a = tincConf := by
      have hplace : a = tincConf ∧ name = vpn ∨ a = tincConf ∧ name = vpnOld := by
        simpa using backupNode_some h
      exact hplace.elim And.left And.left
    refine .inr ⟨rfl, ?_⟩
    rcases hname with rfl | rfl
    · exact ⟨ascii "x", (Option.some.inj h).symm, by decide⟩
    · exact ⟨ascii "yy", (Option.some.inj h).symm, by decide⟩
  · simpa using backupNode_some h

def oldBackup : Setting where
  fs := backupFiles
  cwd := []
  src := ascii "/vpn"
  dest := ascii "/vpn.old"
  readdir := backupListing
  source := [vpn]
  destination := [vpnOld]
  depth := 1
  workingDirectory := rfl
  leadsSource := by
    have htext : absolute [] (ascii "/vpn") = fsGetCwd [vpn] := by decide +kernel
    rw [htext]
    exact fsGetCwd_leads rfl
  leadsDestination := by
    have htext : absolute [] (ascii "/vpn.old") = fsGetCwd [] ++ vpnOld ++ [slash] := by
      decide +kernel
    rw [htext]
    exact leads_afterMkdir (fsGetCwd_leads rfl) (by decide)
      (fun old hold => (Option.some.inj hold).symm) []
  copyable :=
    { finite := fun below hne => by
        obtain ⟨node, hnode⟩ := Option.ne_none_iff_exists'.mp hne
        rcases backupNode_below (.inl rfl) hnode with ⟨rfl, -⟩ | ⟨rfl, -⟩
        · decide
        · decide
      sizes := fun below contents hfile => by
        rcases backupNode_below (.inl rfl) hfile with ⟨-, hdir⟩ | ⟨-, c, hc, hsize⟩
        · cases hdir
        · cases hc
          exact hsize
      listed := fun below name hne => by
        obtain ⟨node, hnode⟩ := Option.ne_none_iff_exists'.mp hne
        rcases backupNode_below (.inl rfl) hnode with ⟨hbelow, -⟩ | ⟨hbelow, -⟩
        · cases hbelow
        · cases hbelow
          decide
      nodup := fun below _ => by
        unfold backupListing
        split <;> decide
      entries := fun below hdir name hmem => by
        rcases backupNode_below (.inl rfl) hdir with ⟨rfl, -⟩ | ⟨-, c, hc, -⟩
        · simp only [backupListing, List.nil_append, if_true, List.mem_cons,
            List.not_mem_nil, or_false] at hmem
          rcases hmem with rfl | rfl | rfl
          · exact .inl rfl
          · exact .inr (.inl rfl)
          · exact .inr (.inr (by decide))
        · cases hc
      apart := fun below _ hsuffix => by
        obtain ⟨front, hfront⟩ := hsuffix
        have hlast := (List.append_inj' hfront rfl).2
        exact absurd hlast (by decide)
      kinds := fun below node old hnode hold => by
        have hthere := backupNode_below (.inr rfl) hold
        rcases backupNode_below (.inl rfl) hnode with ⟨rfl, rfl⟩ | ⟨rfl, c, rfl, -⟩
        · rcases hthere with ⟨-, rfl⟩ | ⟨hbelow, -⟩
          · rfl
          · cases hbelow
        · rcases hthere with ⟨hbelow, -⟩ | ⟨-, c', rfl, -⟩
          · cases hbelow
          · simp }

theorem oldBackup_tail :
    (mainCreateBackup backupListing 2 backupFiles [] (ascii "/vpn")).map
        (fun result => (result.1, result.2.1.node [tincConf, vpnOld])) =
      some (true, some (.regular (ascii "xy"))) ∧ ¬ Faithful oldBackup := by
  have hrun : (mainCreateBackup backupListing 2 backupFiles [] (ascii "/vpn")).map
      (fun result => (result.1, result.2.1.node [tincConf, vpnOld])) =
        some (true, some (.regular (ascii "xy"))) := by decide +kernel
  refine ⟨hrun, fun h => ?_⟩
  obtain ⟨fs', hcopy, hfiles⟩ := h 2 (by decide)
  have hsame : mainCreateBackup backupListing 2 backupFiles [] (ascii "/vpn") =
      some (true, fs', []) := hcopy
  rw [hsame] at hrun
  have hfile : fs'.node [tincConf, vpnOld] = some (.regular (ascii "x")) :=
    hfiles [tincConf] (ascii "x") rfl
  rw [Option.map_some, hfile] at hrun
  have hcontents := (Prod.mk.inj (Option.some.inj hrun)).2
  exact absurd (Node.regular.inj (Option.some.inj hcontents)) (by decide)

end ChaosVpn.Backup
