import ChaosVpn.HostsDirectory
import Mathlib.Data.List.Induction

/-! fs_empty_dir on a directory with symbolic links. It looks at the entries with stat(),
which follows links, and unlinks what it takes for a regular file. All operations succeed. -/

namespace ChaosVpn.EmptyDirectory
open CStrings HostsDirectory TextLines

inductive Kind
  | regular
  | directory
  deriving DecidableEq

/-- Where a link leads: to an entry of the same directory, or to a file, a directory or
nothing elsewhere. -/
inductive Target
  | entry (name : Bytes)
  | elsewhere (kind : Option Kind)
  deriving DecidableEq

inductive Entry
  | regular
  | directory
  | symlink (target : Target)
  deriving DecidableEq

abbrev Entries := Bytes → Option Entry

/-- The directory as readdir() lists it, every entry once, in any order. -/
structure Directory where
  entries : Entries
  listing : List Bytes
  nodup : listing.Nodup
  listed : ∀ name, entries name ≠ none → name ∈ listing
  notDot : ∀ name, entries name ≠ none → isDot name = false

def maxLinks : Nat := 40

/-- stat() in the directory, which gives up when there are too many links. -/
def statEntry (entries : Entries) : Nat → Bytes → Option Kind
  | 0, _ => none
  | links + 1, name =>
    match entries name with
    | none => none
    | some .regular => some .regular
    | some .directory => some .directory
    | some (.symlink (.entry next)) => statEntry entries links next
    | some (.symlink (.elsewhere kind)) => kind

def stat (entries : Entries) (name : Bytes) : Option Kind := statEntry entries (maxLinks + 1) name

/-- The path of an entry begins with that of the directory. Directories are not unlinked. -/
def unlink (directory : Bytes) (entries : Entries) (path : Bytes) : Entries :=
  if directory.isPrefixOf path ∧ entries (path.drop directory.length) ≠ some .directory then
    Function.update entries (path.drop directory.length) none
  else entries

/-- The path that the names are appended to and cut off again, and what is left. -/
structure EmptyState where
  dst : Bytes
  entries : Entries

def emptyEntry (directory : Bytes) (s : EmptyState) (name : Bytes) : EmptyState :=
  match stat s.entries name with
  | none => s
  | some kind =>
    if isDot name then s
    else if kind = .regular then
      let dstdirlen := s.dst.length
      let dst := s.dst ++ name
      ⟨dst.take dstdirlen, unlink directory s.entries dst⟩
    else s

def ensureSuffix (path : Bytes) : Bytes :=
  if path.getLast? = some slash then path else path ++ [slash]

def fsEmptyDir (curwd dest : Bytes) (dir : Directory) : Bool × Entries :=
  let dst := if dest.head? ≠ some slash then ensureSuffix curwd ++ dest else dest
  let dst := ensureSuffix dst
  (true, (dir.listing.foldl (emptyEntry dst) ⟨dst, dir.entries⟩).entries)

/-- Success, and of the entries the regular files are gone and no others. -/
def RemovesFiles (curwd dest : Bytes) (dir : Directory) : Prop :=
  (fsEmptyDir curwd dest dir).1 = true ∧ ∀ name, (fsEmptyDir curwd dest dir).2 name =
    if dir.entries name = some .regular then none else dir.entries name

/-- What is left when the regular files among some names are gone. -/
def without (entries : Entries) (names : List Bytes) : Entries := fun name =>
  if name ∈ names ∧ entries name = some .regular then none else entries name

/-- When its turn comes, no link leads to a regular file. -/
def LinksSpared (dir : Directory) : Prop :=
  ∀ before name after target, dir.listing = before ++ name :: after →
    dir.entries name = some (.symlink target) →
      stat (without dir.entries before) name ≠ some .regular

/-! One entry -/

def removeFile (entries : Entries) (name : Bytes) : Entries :=
  if isDot name = false ∧ stat entries name = some .regular then
    Function.update entries name none
  else entries

variable {directory : Bytes} {entries : Entries} {name : Bytes}

theorem stat_directory (h : entries name = some .directory) :
    stat entries name = some .directory := by
  simp [stat, statEntry, h]

theorem unlink_entry (h : stat entries name = some .regular) :
    unlink directory entries (directory ++ name) = Function.update entries name none := by
  have hfile : entries name ≠ some .directory := fun hdir => by
    rw [stat_directory hdir] at h
    cases h
  rw [unlink, List.drop_left, if_pos ⟨by simp, hfile⟩]

/-- The path is the same again behind every entry. -/
theorem emptyEntry_eq (entries : Entries) (name : Bytes) :
    emptyEntry directory ⟨directory, entries⟩ name = ⟨directory, removeFile entries name⟩ := by
  unfold emptyEntry removeFile
  cases hstat : stat entries name with
  | none => simp
  | some kind =>
    cases hdot : isDot name with
    | true => simp
    | false =>
      cases kind with
      | directory => simp
      | regular => simp [unlink_entry hstat]

theorem fsEmptyDir_eq (curwd dest : Bytes) (dir : Directory) :
    fsEmptyDir curwd dest dir = (true, dir.listing.foldl removeFile dir.entries) := by
  have hloop : ∀ (directory : Bytes) (names : List Bytes) (entries : Entries),
      names.foldl (emptyEntry directory) ⟨directory, entries⟩ =
        ⟨directory, names.foldl removeFile entries⟩ := by
    intro directory names
    induction names with
    | nil => exact fun _ => rfl
    | cons name names ih =>
      intro entries
      rw [List.foldl_cons, List.foldl_cons, emptyEntry_eq, ih]
  rw [fsEmptyDir, hloop]

/-! The loop -/

/-- What is gone stays away. -/
theorem foldl_removeFile_none {names : List Bytes} (h : entries name = none) :
    names.foldl removeFile entries name = none := by
  induction names generalizing entries with
  | nil => exact h
  | cons listed names ih =>
    refine ih ?_
    unfold removeFile
    split
    · by_cases hname : name = listed
      · rw [hname, Function.update_self]
      · rw [Function.update_of_ne hname, h]
    · exact h

theorem without_singleton (entries : Entries) (names : List Bytes) (listed : Bytes) :
    without entries (names ++ [listed]) =
      if entries listed = some .regular then Function.update (without entries names) listed none
      else without entries names := by
  funext n
  by_cases hlisted : n = listed
  · subst hlisted
    split
    · rename_i hregular
      simp [without, hregular]
    · rename_i hother
      simp [without, hother]
  · have hupdate : Function.update (without entries names) listed none n =
        without entries names n := Function.update_of_ne hlisted _ _
    split
    · rw [hupdate]
      simp [without, hlisted]
    · simp [without, hlisted]

/-- Up to the first link that leads to a file, just the regular files are removed. -/
theorem foldl_removeFile (dir : Directory) {before after : List Bytes}
    (hlisting : dir.listing = before ++ after)
    (hspared : ∀ front listed back target, before = front ++ listed :: back →
      dir.entries listed = some (.symlink target) →
        stat (without dir.entries front) listed ≠ some .regular) :
    before.foldl removeFile dir.entries = without dir.entries before := by
  induction before using List.reverseRecOn generalizing after with
  | nil =>
    funext n
    simp [without]
  | append_singleton before listed ih =>
    have hnodup := dir.nodup
    rw [hlisting, List.append_assoc] at hnodup
    have hnew : listed ∉ before := fun hmem =>
      (List.nodup_append.mp hnodup).2.2 listed hmem listed (by simp) rfl
    have hsame : without dir.entries before listed = dir.entries listed :=
      if_neg fun h => hnew h.1
    have hbefore := ih (hlisting.trans (List.append_assoc _ _ _)) fun front l back target heq =>
      hspared front l (back ++ [listed]) target (by simp [heq])
    rw [List.foldl_append, hbefore, without_singleton]
    show removeFile _ _ = _
    unfold removeFile
    cases hentry : dir.entries listed with
    | none =>
      have hstat : stat (without dir.entries before) listed = none := by
        simp [stat, statEntry, hsame, hentry]
      simp [hstat]
    | some entry =>
      cases entry with
      | regular =>
        have hstat : stat (without dir.entries before) listed = some .regular := by
          simp [stat, statEntry, hsame, hentry]
        simp [hstat, dir.notDot listed (by simp [hentry])]
      | directory =>
        have hstat := stat_directory (hsame.trans hentry)
        simp [hstat]
      | symlink target =>
        have hstat := hspared before listed [] target rfl hentry
        simp [hstat]

theorem removesFiles_of_linksSpared (curwd dest : Bytes) {dir : Directory} (h : LinksSpared dir) :
    RemovesFiles curwd dest dir := by
  have hloop := foldl_removeFile dir (List.append_nil _).symm
    fun front listed back target heq => h front listed back target heq
  refine ⟨rfl, fun name => ?_⟩
  rw [fsEmptyDir_eq, hloop]
  by_cases hregular : dir.entries name = some .regular
  · have hlisted := dir.listed name (by simp [hregular])
    simp [without, hlisted, hregular]
  · simp [without, hregular]

/-- The first link that leads to a regular file is unlinked. -/
theorem link_removed (curwd dest : Bytes) {dir : Directory} {before after : List Bytes}
    {target : Target} (hlisting : dir.listing = before ++ name :: after)
    (hlink : dir.entries name = some (.symlink target))
    (hfile : stat (without dir.entries before) name = some .regular)
    (hspared : ∀ front listed back target, before = front ++ listed :: back →
      dir.entries listed = some (.symlink target) →
        stat (without dir.entries front) listed ≠ some .regular) :
    (fsEmptyDir curwd dest dir).2 name = none := by
  rw [fsEmptyDir_eq, hlisting, List.foldl_append, List.foldl_cons,
    foldl_removeFile dir hlisting hspared]
  refine foldl_removeFile_none ?_
  rw [removeFile, if_pos ⟨dir.notDot name (by simp [hlink]), hfile⟩, Function.update_self]

theorem linksSpared_of_removesFiles {curwd dest : Bytes} {dir : Directory}
    (h : RemovesFiles curwd dest dir) : LinksSpared dir := by
  intro before
  induction hn : before.length using Nat.strongRecOn generalizing before with
  | ind n ih =>
    intro name after target hlisting hlink hfile
    have hremoved := link_removed curwd dest hlisting hlink hfile
      fun front listed back target' heq hlink' => by
        refine ih front.length ?_ front rfl listed (back ++ name :: after) target' ?_ hlink'
        · rw [← hn, heq, List.length_append, List.length_cons]
          omega
        · rw [hlisting, heq, List.append_assoc, List.cons_append]
    have hkept := h.2 name
    rw [hremoved, hlink, if_neg (by simp)] at hkept
    cases hkept

/-- stat() looks through the links, so those that lead to a file go with the files. -/
theorem removesFiles_iff (curwd dest : Bytes) (dir : Directory) :
    RemovesFiles curwd dest dir ↔ LinksSpared dir :=
  ⟨linksSpared_of_removesFiles, removesFiles_of_linksSpared curwd dest⟩

/-- The directory of the host files with one file and a link to a file elsewhere. -/
def linkedHosts : Directory where
  entries name :=
    if name = ascii "lab" then some .regular
    else if name = ascii "office" then some (.symlink (.elsewhere (some .regular)))
    else none
  listing := [ascii ".", ascii "..", ascii "lab", ascii "office"]
  nodup := by decide +kernel
  listed name h := by
    by_cases hlab : name = ascii "lab"
    · simp [hlab]
    · by_cases hoffice : name = ascii "office"
      · simp [hoffice]
      · simp [hlab, hoffice] at h
  notDot name h := by
    by_cases hlab : name = ascii "lab"
    · rw [hlab]
      decide
    · by_cases hoffice : name = ascii "office"
      · rw [hoffice]
        decide
      · simp [hlab, hoffice] at h

theorem linkedHosts_link_removed :
    linkedHosts.entries (ascii "office") = some (.symlink (.elsewhere (some .regular))) ∧
      (fsEmptyDir (ascii "/") (ascii "/etc/tinc/vpn/hosts") linkedHosts).2 (ascii "office") =
        none ∧
      ¬ RemovesFiles (ascii "/") (ascii "/etc/tinc/vpn/hosts") linkedHosts := by
  refine ⟨by decide +kernel, by decide +kernel, fun h => ?_⟩
  exact linksSpared_of_removesFiles h [ascii ".", ascii "..", ascii "lab"] (ascii "office") []
    (.elsewhere (some .regular)) rfl (by decide +kernel) (by decide +kernel)

end ChaosVpn.EmptyDirectory
