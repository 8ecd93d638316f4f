import Mathlib.Data.List.Nodup
import Mathlib.Logic.Function.Basic
import ChaosVpn.HostFile

/-! The directory of the host files: fs_empty_dir, fs_writecontents_safe and
tinc_write_hosts. The path of the directory is absolute, so all of them mean the same
one, and no two of its names lead to one file. -/

namespace ChaosVpn.HostsDirectory
open CStrings Libc Settings PeerParser HostFile

/-- What stat() and open() find under a name, following links. -/
inductive Entry
  | regular (contents : Bytes)
  | dangling
  | directory
  | special
  deriving DecidableEq

inductive HostsPath
  | missing
  | directory (entries : Bytes → Option Entry)
  | other

def entriesOf : HostsPath → Bytes → Option Entry
  | .directory entries => entries
  | _ => fun _ => none

/-- How the file operations turn out. The directory is read until it ends or that fails;
the files are opened and written one for each peer. -/
structure FileOutcomes where
  getcwd : Bool
  statDirectory : Bool
  chdir : Bool
  opendir : Bool
  listing : List Bytes
  statEntry : Bytes → Bool
  unlink : Bytes → Bool
  mkdir : Bool
  openFile : Nat → Bool
  written : Nat → Nat

def isDot (name : Bytes) : Bool := name == ascii "." || name == ascii ".."

def isRegular : Option Entry → Bool
  | some (.regular _) => true
  | _ => false

/-- An entry that cannot be looked at is passed over, and a file that cannot be unlinked
is only logged. -/
def emptyEntry (outcomes : FileOutcomes) (entries : Bytes → Option Entry) (name : Bytes) :
    Bytes → Option Entry :=
  if !outcomes.statEntry name then entries
  else if isDot name then entries
  else if isRegular (entries name) then
    if outcomes.unlink name then Function.update entries name none else entries
  else entries

/-- A directory that is not there, or that cannot be looked at, counts as empty. -/
def fsEmptyDir (outcomes : FileOutcomes) (dest : HostsPath) : HostsPath × Bool :=
  if !outcomes.getcwd then (dest, false)
  else if !outcomes.statDirectory then (dest, true)
  else
    match dest with
    | .missing => (dest, true)
    | .other => (dest, false)
    | .directory entries =>
      if !outcomes.chdir || !outcomes.opendir then (dest, false)
      else (.directory (outcomes.listing.foldl (emptyEntry outcomes) entries), true)

def fsMkdirP (outcomes : FileOutcomes) : HostsPath → HostsPath
  | .missing => if outcomes.mkdir then .directory fun _ => none else .missing
  | path => path

def safeName (fn : Bytes) : Bytes := fn.map fun c => if c = slash then 95 else c

/-- The names without a letter or with dots only are those of directories. -/
def fsWritecontentsSafe (outcomes : FileOutcomes) (peer : Nat) (dir : HostsPath)
    (fn cnt : Bytes) : HostsPath × Bool :=
  match dir with
  | .directory entries =>
    let file := safeName fn
    let bw := min (outcomes.written peer) cnt.length
    if file.isEmpty || isDot file || !outcomes.openFile peer then (dir, false)
    else
      match entries file with
      | some .directory => (dir, false)
      | some .special => (dir, bw = cnt.length)
      | _ => (.directory (Function.update entries file (some (.regular (cnt.take bw)))),
          bw = cnt.length)
  | _ => (dir, false)

/-- The loop over the peers, up to the first file that cannot be written. -/
def writeHosts (libc : CLibrary) (config : Config) (outcomes : FileOutcomes) :
    Nat → HostsPath → List PeerConfig → Option (HostsPath × Bool)
  | _, dir, [] => some (dir, true)
  | count, dir, peer :: peers =>
    (tincGeneratePeerConfig libc config peer).bind fun contents =>
      match fsWritecontentsSafe outcomes count dir peer.name contents with
      | (dir, true) => writeHosts libc config outcomes (count + 1) dir peers
      | (dir, false) => some (dir, false)

def tincWriteHosts (libc : CLibrary) (config : Config) (outcomes : FileOutcomes)
    (hosts : HostsPath) (peerConfig : List PeerConfig) : Option (HostsPath × Bool) :=
  writeHosts libc config outcomes 0 (fsMkdirP outcomes hosts) peerConfig

/-! What the cleanup leaves -/

def Unlinked (outcomes : FileOutcomes) (name : Bytes) : Prop :=
  outcomes.statEntry name = true ∧ isDot name = false ∧ outcomes.unlink name = true

instance (outcomes : FileOutcomes) (name : Bytes) : Decidable (Unlinked outcomes name) :=
  inferInstanceAs (Decidable (_ ∧ _ ∧ _))

/-- What has to succeed for a file to be removed. -/
def Removed (outcomes : FileOutcomes) (name : Bytes) : Prop :=
  outcomes.statDirectory = true ∧ name ∈ outcomes.listing ∧ Unlinked outcomes name

instance (outcomes : FileOutcomes) (name : Bytes) : Decidable (Removed outcomes name) :=
  inferInstanceAs (Decidable (_ ∧ _ ∧ _))

variable {outcomes : FileOutcomes} {name : Bytes}

theorem emptyEntry_eq (entries : Bytes → Option Entry) (listed : Bytes) :
    emptyEntry outcomes entries listed =
      if isRegular (entries listed) = true ∧ Unlinked outcomes listed then
        Function.update entries listed none
      else entries := by
  by_cases hunlinked : isRegular (entries listed) = true ∧ Unlinked outcomes listed
  · obtain ⟨hregular, hstat, hdot, hunlink⟩ := id hunlinked
    rw [if_pos hunlinked, emptyEntry, hstat, hdot, hregular, hunlink]
    rfl
  · rw [if_neg hunlinked, emptyEntry]
    split
    · rfl
    · rename_i hstat
      split
      · rfl
      · rename_i hdot
        split
        · rename_i hregular
          refine if_neg fun hunlink => hunlinked ⟨hregular, ?_, ?_, hunlink⟩
          · simpa using hstat
          · simpa using hdot
        · rfl

theorem foldl_emptyEntry (listing : List Bytes) (entries : Bytes → Option Entry) :
    listing.foldl (emptyEntry outcomes) entries name =
      if isRegular (entries name) = true ∧ name ∈ listing ∧ Unlinked outcomes name then none
      else entries name := by
  induction listing generalizing entries with
  | nil => simp
  | cons listed listing ih =>
    rw [List.foldl_cons, ih, emptyEntry_eq]
    by_cases hname : name = listed
    · subst hname
      by_cases hremove : isRegular (entries name) = true ∧ Unlinked outcomes name
      · rw [if_pos hremove, Function.update_self]
        simp [hremove]
      · rw [if_neg hremove, if_neg fun h => hremove ⟨h.1, h.2.2⟩,
          if_neg fun h => hremove ⟨h.1, h.2.2⟩]
    · have hsame : (if isRegular (entries listed) = true ∧ Unlinked outcomes listed then
          Function.update entries listed none else entries) name = entries name := by
        split
        · exact Function.update_of_ne hname _ _
        · rfl
      rw [hsame]
      simp [hname]

theorem fsEmptyDir_spec {dest : HostsPath} (h : (fsEmptyDir outcomes dest).2 = true)
    (name : Bytes) :
    entriesOf (fsEmptyDir outcomes dest).1 name =
      if isRegular (entriesOf dest name) = true ∧ Removed outcomes name then none
      else entriesOf dest name := by
  have hkept (hnone : ∀ n, isRegular (entriesOf dest n) = false) :
      entriesOf dest name = if isRegular (entriesOf dest name) = true ∧ Removed outcomes name
        then none else entriesOf dest name :=
    (if_neg fun h => Bool.false_ne_true ((hnone name).symm.trans h.1)).symm
  unfold fsEmptyDir at h ⊢
  split at h
  · cases h
  · rename_i hcwd
    rw [if_neg hcwd]
    split at h
    · rename_i hstat
      rw [if_pos hstat]
      exact (if_neg fun hremoved => by simp [hremoved.2.1] at hstat).symm
    · rename_i hstat
      rw [if_neg hstat]
      cases dest with
      | missing => exact hkept fun _ => rfl
      | other => cases h
      | directory entries =>
        dsimp only at h ⊢
        split at h
        · cases h
        · rename_i hopen
          have hdirectory : outcomes.statDirectory = true := by simpa using hstat
          rw [if_neg hopen]
          refine (foldl_emptyEntry outcomes.listing entries).trans ?_
          simp [entriesOf, Removed, hdirectory]

/-! What is written -/

theorem entriesOf_fsMkdirP (path : HostsPath) :
    entriesOf (fsMkdirP outcomes path) = entriesOf path := by
  unfold fsMkdirP
  cases path with
  | missing => cases outcomes.mkdir <;> rfl
  | directory entries => rfl
  | other => rfl

/-- A file that is written has its contents, unless it is a special one. -/
theorem fsWritecontentsSafe_spec {count : Nat} {dir dir' : HostsPath} {fn cnt : Bytes}
    (h : fsWritecontentsSafe outcomes count dir fn cnt = (dir', true)) :
    entriesOf dir' = if entriesOf dir (safeName fn) = some .special then entriesOf dir
      else Function.update (entriesOf dir) (safeName fn) (some (.regular cnt)) := by
  have htake : min (outcomes.written count) cnt.length = cnt.length →
      cnt.take (min (outcomes.written count) cnt.length) = cnt := fun hbw => by
    rw [hbw, List.take_length]
  unfold fsWritecontentsSafe at h
  cases dir with
  | missing => cases h
  | other => cases h
  | directory entries =>
    dsimp only at h
    split at h
    · cases h
    · split at h
      · cases h
      · rename_i hentry
        obtain ⟨rfl, -⟩ := Prod.mk.inj h
        exact (if_pos hentry).symm
      · rename_i hspecial
        obtain ⟨rfl, hbw⟩ := Prod.mk.inj h
        rw [htake (of_decide_eq_true hbw)]
        exact (if_neg hspecial).symm

/-- The last file that is written under a name. -/
def lastWritten (libc : CLibrary) (config : Config) (peers : List PeerConfig) (name : Bytes) :
    Option Bytes :=
  (peers.reverse.find? fun peer => safeName peer.name == name).bind
    (tincGeneratePeerConfig libc config)

section Written
variable {libc : CLibrary} {config : Config} {peers : List PeerConfig}

theorem lastWritten_append (front : List PeerConfig)
    (h : ∀ peer ∈ peers, (tincGeneratePeerConfig libc config peer).isSome = true) :
    lastWritten libc config (front ++ peers) name =
      (lastWritten libc config peers name).or (lastWritten libc config front name) := by
  unfold lastWritten
  rw [List.reverse_append, List.find?_append]
  cases hfind : peers.reverse.find? fun peer => safeName peer.name == name with
  | none => rfl
  | some last =>
    have hlast := h last (List.mem_reverse.mp (List.mem_of_find?_eq_some hfind))
    obtain ⟨contents, hcontents⟩ := Option.isSome_iff_exists.mp hlast
    simp [hcontents]

theorem lastWritten_singleton (peer : PeerConfig) :
    lastWritten libc config [peer] name =
      if safeName peer.name = name then tincGeneratePeerConfig libc config peer else none := by
  by_cases hname : safeName peer.name = name <;> simp [lastWritten, hname]

theorem lastWritten_mem {contents : Bytes}
    (h : lastWritten libc config peers name = some contents) :
    ∃ peer ∈ peers, safeName peer.name = name ∧
      tincGeneratePeerConfig libc config peer = some contents := by
  obtain ⟨peer, hfind, hcontents⟩ := Option.bind_eq_some_iff.mp h
  have hname := List.find?_some hfind
  exact ⟨peer, List.mem_reverse.mp (List.mem_of_find?_eq_some hfind), by simpa using hname,
    hcontents⟩

theorem isSome_lastWritten
    (h : ∀ peer ∈ peers, (tincGeneratePeerConfig libc config peer).isSome = true) :
    (lastWritten libc config peers name).isSome = true ↔
      ∃ peer ∈ peers, safeName peer.name = name := by
  constructor
  · intro hsome
    obtain ⟨contents, hcontents⟩ := Option.isSome_iff_exists.mp hsome
    obtain ⟨peer, hpeer, hname, -⟩ := lastWritten_mem hcontents
    exact ⟨peer, hpeer, hname⟩
  · rintro ⟨peer, hpeer, hname⟩
    have hfound : (peers.reverse.find? fun peer => safeName peer.name == name).isSome = true :=
      List.find?_isSome.mpr ⟨peer, by simpa using hpeer, by simpa using hname⟩
    obtain ⟨last, hlast⟩ := Option.isSome_iff_exists.mp hfound
    rw [lastWritten, hlast]
    exact h last (List.mem_reverse.mp (List.mem_of_find?_eq_some hlast))

/-- Of names that stay distinct, every peer is the last of its own. -/
theorem lastWritten_eq_some_iff {contents : Bytes}
    (h : ∀ peer ∈ peers, (tincGeneratePeerConfig libc config peer).isSome = true)
    (hnodup : (peers.map fun peer => safeName peer.name).Nodup) :
    lastWritten libc config peers name = some contents ↔
      ∃ peer ∈ peers, safeName peer.name = name ∧
        tincGeneratePeerConfig libc config peer = some contents := by
  refine ⟨lastWritten_mem, ?_⟩
  rintro ⟨peer, hpeer, hname, hcontents⟩
  obtain ⟨contents', hlast⟩ :=
    Option.isSome_iff_exists.mp ((isSome_lastWritten h).mpr ⟨peer, hpeer, hname⟩)
  obtain ⟨peer', hpeer', hname', hcontents'⟩ := lastWritten_mem hlast
  obtain rfl := List.inj_on_of_nodup_map hnodup hpeer hpeer' (hname.trans hname'.symm)
  rw [hlast, ← hcontents', hcontents]

theorem writeHosts_spec (peers : List PeerConfig) (name : Bytes) :
    ∀ {count : Nat} {dir dir' : HostsPath},
      writeHosts libc config outcomes count dir peers = some (dir', true) →
        (∀ peer ∈ peers, (tincGeneratePeerConfig libc config peer).isSome = true) ∧
        entriesOf dir' name =
          if entriesOf dir name = some .special then some .special
          else
            ((lastWritten libc config peers name).map Entry.regular).or (entriesOf dir name) := by
  induction peers with
  | nil =>
    intro count dir dir' h
    obtain ⟨rfl, -⟩ := Prod.mk.inj (Option.some.inj h)
    refine ⟨by simp, ?_⟩
    by_cases hspecial : entriesOf dir name = some .special <;> simp [hspecial, lastWritten]
  | cons peer peers ih =>
    intro count dir dir' h
    obtain ⟨contents, hcontents, h⟩ := Option.bind_eq_some_iff.mp h
    cases hwrite : fsWritecontentsSafe outcomes count dir peer.name contents with
    | mk written ok =>
      rw [hwrite] at h
      cases ok with
      | false => cases h
      | true =>
        obtain ⟨hrest, hentries⟩ := ih h
        refine ⟨List.forall_mem_cons.mpr ⟨Option.isSome_of_eq_some hcontents, hrest⟩, ?_⟩
        rw [hentries, fsWritecontentsSafe_spec hwrite, ← List.singleton_append,
          lastWritten_append [peer] hrest, lastWritten_singleton, hcontents]
        by_cases hname : safeName peer.name = name
        · subst hname
          by_cases hspecial : entriesOf dir (safeName peer.name) = some .special
          · simp [hspecial]
          · rw [if_neg hspecial, if_neg hspecial, Function.update_self, if_neg (by simp),
              if_pos rfl]
            cases lastWritten libc config peers (safeName peer.name) <;> rfl
        · have hsame : (if entriesOf dir (safeName peer.name) = some .special then entriesOf dir
              else Function.update (entriesOf dir) (safeName peer.name)
                (some (.regular contents))) name = entriesOf dir name := by
            split
            · rfl
            · exact Function.update_of_ne (Ne.symm hname) _ _
          rw [hsame, if_neg hname, Option.or_none]

end Written

theorem safeName_of_plain {fn : Bytes} (h : slash ∉ fn) : safeName fn = fn := by
  refine (List.map_congr_left fun c hc => ?_).trans (List.map_id fn)
  have hother : c ≠ slash := fun hslash => h (hslash ▸ hc)
  exact if_neg hother

/-- Every section of a text with distinct names is the last one of its file. -/
theorem lastWritten_section {libc : CLibrary} {config : Config} {text : Bytes}
    (hgenerated : ∀ peer ∈ parserParseConfig libc text,
      (tincGeneratePeerConfig libc config peer).isSome = true)
    (hnodup : (sectionNames text).Nodup) (hslash : ∀ name ∈ sectionNames text, slash ∉ name)
    (contents : Bytes) :
    lastWritten libc config (parserParseConfig libc text) name = some contents ↔
      ∃ peer ∈ parserParseConfig libc text, peer.name = name ∧
        tincGeneratePeerConfig libc config peer = some contents := by
  have hsafe : ∀ peer ∈ parserParseConfig libc text, safeName peer.name = peer.name :=
    fun peer hpeer =>
      safeName_of_plain (hslash _ (mem_sectionNames_iff.mpr ⟨peer, hpeer, rfl⟩))
  have hdistinct : ((parserParseConfig libc text).map fun peer => safeName peer.name).Nodup := by
    rw [List.map_congr_left hsafe, names_parserParseConfig]
    exact hnodup
  rw [lastWritten_eq_some_iff hgenerated hdistinct]
  refine exists_congr fun peer => and_congr_right fun hpeer => ?_
  rw [hsafe peer hpeer]

end ChaosVpn.HostsDirectory
