import Mathlib.Algebra.Group.Nat.Defs
import ChaosVpn.Crypto
import ChaosVpn.StringSafety

/-! The two key files that config_init reads into strings that grow, and the places that take
what is in them for C strings. -/

namespace ChaosVpn.KeyFiles
open CStrings Blocks Blocks.Behaviour StringMemory StringSprintf StringSafety Crypto

/-- What fread() gives of a file until it gives nothing more, in chunks of at most 4096 bytes, and
whether ferror() is set then. The length of a file is an off_t. -/
structure KeyFile where
  chunks : List Bytes
  ferror : Bool
  chunk_length : ∀ chunk ∈ chunks, 0 < chunk.length ∧ chunk.length ≤ 4096
  nul_free : 0 ∉ chunks.flatten
  length_lt : chunks.flatten.length < 2 ^ 63

def KeyFile.content (file : KeyFile) : Bytes := file.chunks.flatten

def readChunks (memory : Memory) (buffer : StructString) (failed : Bool) :
    List Bytes → Behaviour (Bool × StructString)
  | [] => returns (!failed, buffer)
  | chunk :: chunks => do
    let (ok, buffer) ← stringConcatb memory buffer chunk chunk.length
    if ok then readChunks memory buffer failed chunks else return (false, buffer)

def fsReadFile (memory : Memory) (buffer : StructString) (fopen : Bytes → Option KeyFile)
    (fname : Bytes) : Behaviour (Bool × StructString) :=
  match fopen fname with
  | none => returns (false, buffer)
  | some file => readChunks memory buffer file.ferror file.chunks

structure KeyConfig where
  basePath : Bytes
  privkey : StructString
  ed25519publickey : StructString

/-- The strings as config_alloc makes them. -/
def configAlloc (basePath : Bytes) : KeyConfig :=
  ⟨basePath, stringLazyinit 2048, stringLazyinit 1024⟩

def rsaKeyName (basePath : Bytes) : Bytes := basePath ++ ascii "/rsa_key.priv"

def ed25519KeyName (basePath : Bytes) : Bytes := basePath ++ ascii "/ed25519_key.pub"

/-- The part of config_init that reads the keys; a missing Ed25519 key is no error. -/
def configInitKeys (memory : Memory) (fopen : Bytes → Option KeyFile) (config : KeyConfig) :
    Behaviour (Bool × KeyConfig) := do
  let privkey ← stringFree config.privkey
  let (ok, privkey) ← fsReadFile memory privkey fopen (rsaKeyName config.basePath)
  if ok then
    let ed25519publickey ← stringFree config.ed25519publickey
    let (_, ed25519publickey) ←
      fsReadFile memory ed25519publickey fopen (ed25519KeyName config.basePath)
    return (true, { config with privkey, ed25519publickey })
  else return (false, { config with privkey })

/-- The bytes strlen() and what comes after it see. -/
def cText (p : Pointer) : Behaviour Bytes :=
  if (0 : UInt8) ∈ p.cells then returns (p.cells.takeWhile (· ≠ 0)) else outside

def loadPrivkey (ssl : OpenSsl) (config : KeyConfig) : Behaviour (Option EvpPkey) := do
  let key ← cText config.privkey.s
  return cryptoLoadKey ssl key true

/-- The end of the own host file. -/
def ownEd25519Lines (config : KeyConfig) : Behaviour Bytes :=
  match config.ed25519publickey.s with
  | .null => returns []
  | s => do
    let text ← cText s
    return if text.isEmpty then [] else text ++ ascii "\n"

/-! What is read into an empty string -/

variable {memory : Memory} {st st' : StructString} {growby : Nat} {text bytes : Bytes}

/-- The string holds a text, zeros behind it and no step of `growby` more than it takes. -/
structure Filled (growby : Nat) (text : Bytes) (st : StructString) : Prop where
  valid : Valid st
  growby_eq : st.growby = growby
  content_eq : StringMemory.content st = text
  behind_zero : ∀ c ∈ behind st, c = 0
  fewest : ∃ k, st.size = k * growby ∧ ∀ j < k, j * growby < text.length

theorem filled_empty (h : growby < 2 ^ 64) : Filled growby [] ⟨0, 0, growby, .null⟩ where
  valid := valid_empty h
  growby_eq := rfl
  content_eq := rfl
  behind_zero := fun _ hc => nomatch hc
  fewest := ⟨0, (Nat.zero_mul _).symm, fun _ hj => absurd hj (Nat.not_lt_zero _)⟩

theorem Filled.length_eq (h : Filled growby text st) : st.length = text.length := by
  rw [← h.valid.content_length, h.content_eq]

theorem Filled.append (h : Filled growby text st) (happended : Appended st st' bytes) :
    Filled growby (text ++ bytes) st' := by
  obtain ⟨k, hsize, hfewest⟩ := h.fewest
  have hlength := h.length_eq
  have hgrowby := h.growby_eq
  obtain ⟨hvalid, hsame, hcontent, n, hsteps, hsize', hbehind⟩ := happended
  refine ⟨hvalid, hsame.trans hgrowby, by rw [hcontent, h.content_eq], ?_, k + n, ?_, ?_⟩
  · intro c hc
    rw [hbehind] at hc
    rcases List.mem_append.mp (List.mem_of_mem_drop hc) with hold | hnew
    · exact h.behind_zero c hold
    · exact List.eq_of_mem_replicate hnew
  · rw [hsize', hgrowby, hsize, Nat.add_mul]
  · intro j hj
    rw [List.length_append]
    rcases Nat.lt_or_ge j k with hless | hge
    · have hold := hfewest j hless
      omega
    · have hnew := hsteps.2 (j - k) (by omega)
      rw [hgrowby, hsize, ← Nat.add_mul, Nat.add_sub_cancel' hge, hlength] at hnew
      exact hnew

theorem Filled.size_le (h : Filled growby text st) : st.size ≤ text.length + growby := by
  obtain ⟨k, hsize, hfewest⟩ := h.fewest
  cases k with
  | zero => omega
  | succ k =>
    have hlast := hfewest k (Nat.lt_succ_self k)
    rw [hsize, Nat.succ_mul]
    omega

/-- Where string_concatb comes back at all it has appended. -/
theorem concatb_returned {ok : Bool} (h : Valid st) (hgrow : 0 < st.growby)
    (hsums : SumsFit st bytes.length) (hroom : Room st bytes.length)
    (hreturns : stringConcatb memory st bytes bytes.length = returns (ok, st')) :
    ok = true ∧ Appended st st' bytes := by
  have happended : ∃ st₁, stringConcatb memory st bytes bytes.length = returns (true, st₁) ∧
      Appended st st₁ bytes := by
    by_cases hplace : st.length + bytes.length ≤ st.size
    · exact concatb_in_place memory h hplace
    · have hgranted := (concatb_grows h hgrow hsums (by omega)).mp ⟨_, hreturns⟩
      obtain ⟨k, hfewest, hfits, -⟩ := growLoop_fewest h hgrow hroom (by omega)
      obtain ⟨st₁, hreturns', happended⟩ := stringConcatb_appended h hgrow hroom
        (Nat.le_refl bytes.length) fun j hj => by
          rw [FewestSteps.unique hj hfewest]
          exact hgranted k hfewest hfits
      rw [List.take_length] at happended
      exact ⟨st₁, hreturns', happended⟩
  obtain ⟨st₁, hreturns', happended⟩ := happended
  cases hreturns.symm.trans hreturns'
  exact ⟨rfl, happended⟩

theorem Filled.room (h : Filled growby text st) (hgrow : 0 < growby)
    (hfits : text.length + bytes.length + 2 * growby < 2 ^ 64) : Room st bytes.length := by
  have hsize := h.size_le
  have hold := h.length_eq
  have hvalid := h.valid.length_le
  refine ⟨(bytes.length + growby) / growby, ?_, ?_⟩
  all_goals rw [h.growby_eq]
  · have hmod := Nat.div_add_mod' (bytes.length + growby) growby
    have hless := Nat.mod_lt (bytes.length + growby) hgrow
    omega
  · have hdiv := Nat.div_mul_le_self (bytes.length + growby) growby
    omega

/-- The bounds of a file and of a buffer that grows by a page or less. -/
theorem fits_of_file {chunk : Bytes} {chunks : List Bytes} (hsmall : growby ≤ 4096)
    (hlength : (text ++ (chunk :: chunks).flatten).length < 2 ^ 63) :
    text.length + chunk.length + 2 * growby < 2 ^ 64 := by
  rw [List.flatten_cons, List.length_append, List.length_append] at hlength
  omega

theorem readChunks_filled {chunks : List Bytes} {failed ok : Bool} (h : Filled growby text st)
    (hgrow : 0 < growby) (hsmall : growby ≤ 4096)
    (hlength : (text ++ chunks.flatten).length < 2 ^ 63)
    (hreturns : readChunks memory st failed chunks = returns (ok, st')) :
    ok = !failed ∧ Filled growby (text ++ chunks.flatten) st' := by
  induction chunks generalizing text st with
  | nil =>
    cases hreturns
    rw [List.flatten_nil, List.append_nil]
    exact ⟨rfl, h⟩
  | cons chunk chunks ih =>
    obtain ⟨⟨ok', st₁⟩, hconcatb, hrest⟩ := bind_eq_returns.mp hreturns
    have hfits := fits_of_file hsmall hlength
    have hsize := h.size_le
    have hgrowby := h.growby_eq
    obtain ⟨rfl, happended⟩ := concatb_returned h.valid (by omega) ⟨by omega, by omega⟩
      (h.room hgrow hfits) hconcatb
    rw [List.flatten_cons, ← List.append_assoc] at hlength ⊢
    exact ih (h.append happended) hlength hrest

/-- Where there is memory the file is read to its end. -/
theorem readChunks_returns {chunks : List Bytes} (failed : Bool) (hmemory : ∀ n, memory n ≠ none)
    (h : Filled growby text st) (hgrow : 0 < growby) (hsmall : growby ≤ 4096)
    (hlength : (text ++ chunks.flatten).length < 2 ^ 63) :
    ∃ st', readChunks memory st failed chunks = returns (!failed, st') := by
  induction chunks generalizing text st with
  | nil => exact ⟨st, rfl⟩
  | cons chunk chunks ih =>
    have hgrowby := h.growby_eq
    obtain ⟨st₁, hconcatb, happended⟩ := stringConcatb_appended h.valid (by omega)
      (h.room hgrow (fits_of_file hsmall hlength)) (Nat.le_refl chunk.length) fun _ _ => hmemory _
    rw [List.take_length] at happended
    rw [List.flatten_cons, ← List.append_assoc] at hlength
    obtain ⟨st', hrest⟩ := ih (h.append happended) hlength
    refine ⟨st', ?_⟩
    rw [readChunks, hconcatb]
    exact hrest

/-! The NUL byte behind the text -/

/-- There is a NUL byte in the buffer behind the text, and strlen() stops right at its end. -/
structure Terminated (st : StructString) (text : Bytes) : Prop where
  index : ∃ i, text.length ≤ i ∧ i < st.size ∧ st.s.cells[i]? = some 0
  seen : cText st.s = returns text

theorem Filled.terminated_iff_not_dvd (h : Filled growby text st) (hnul : 0 ∉ text) :
    Terminated st text ↔ ¬ growby ∣ text.length := by
  have hold := h.length_eq
  have hvalid := h.valid.length_le
  obtain ⟨k, hsize, hfewest⟩ := h.fewest
  constructor
  · rintro ⟨⟨i, hbehind, hinside, -⟩, -⟩ ⟨q, hq⟩
    have hk : k ≤ q := by
      by_contra hless
      have hshort := hfewest q (by omega)
      rw [Nat.mul_comm] at hshort
      omega
    have hle := Nat.mul_le_mul_right growby hk
    rw [Nat.mul_comm q] at hle
    omega
  · intro hnot
    have hless : st.length < st.size := by
      refine Nat.lt_of_le_of_ne hvalid fun hfull => hnot ⟨k, ?_⟩
      rw [← hold, hfull, hsize, Nat.mul_comm]
    have hcells : st.s.cells = text ++ behind st := by
      rw [← h.content_eq]
      exact (content_behind st).symm
    cases hbehind : behind st with
    | nil =>
      have hnone := h.valid.behind_length
      rw [hbehind, List.length_nil] at hnone
      omega
    | cons c rest =>
      obtain rfl : c = 0 := h.behind_zero c (by simp [hbehind])
      rw [hbehind] at hcells
      refine ⟨⟨text.length, Nat.le_refl _, by omega, by simp [hcells]⟩, ?_⟩
      have htext : ∀ c ∈ text, decide (c ≠ 0) = true := fun c hc =>
        decide_eq_true fun hzero => hnul (hzero ▸ hc)
      rw [cText, hcells, if_pos (by simp), List.takeWhile_append_of_pos htext]
      simp

variable {fopen : Bytes → Option KeyFile} {config : KeyConfig} {basePath fname : Bytes}
  {priv file : KeyFile}

theorem KeyFile.chunks_of_empty (h : file.content = []) : file.chunks = [] := by
  refine List.eq_nil_iff_forall_not_mem.mpr fun chunk hmem => ?_
  have hnone : chunk = [] := List.flatten_eq_nil_iff.mp h chunk hmem
  have hpos := (file.chunk_length chunk hmem).1
  rw [hnone] at hpos
  exact absurd hpos (Nat.lt_irrefl 0)

/-- What fs_read_file makes of a new string. -/
theorem fsReadFile_filled {ok : Bool} (hgrow : 0 < growby) (hsmall : growby ≤ 4096)
    (hfile : fopen fname = some file)
    (hreturns : fsReadFile memory ⟨0, 0, growby, .null⟩ fopen fname = returns (ok, st)) :
    ok = !file.ferror ∧ Filled growby file.content st ∧
      (st.s = .null ↔ file.content = []) := by
  simp only [fsReadFile, hfile] at hreturns
  have hlength : ([] ++ file.chunks.flatten).length < 2 ^ 63 := file.length_lt
  obtain ⟨hok, hfilled⟩ :=
    readChunks_filled (filled_empty (by omega)) hgrow hsmall hlength hreturns
  refine ⟨hok, hfilled, fun hnull => ?_, fun hempty => ?_⟩
  · have hcells : StringMemory.content st = [] := by
      rw [StringMemory.content, hnull]
      exact List.take_nil
    exact hfilled.content_eq.symm.trans hcells
  · rw [file.chunks_of_empty hempty] at hreturns
    cases hreturns
    rfl

/-- What config_init has read where it goes on with the keys. -/
theorem configInitKeys_reads
    (hreturns : configInitKeys memory fopen (configAlloc basePath) = returns (true, config)) :
    fsReadFile memory (stringLazyinit 2048) fopen (rsaKeyName basePath) =
        returns (true, config.privkey) ∧
      ∃ ok, fsReadFile memory (stringLazyinit 1024) fopen (ed25519KeyName basePath) =
        returns (ok, config.ed25519publickey) := by
  obtain ⟨privkey, hfree, hrest⟩ := bind_eq_returns.mp hreturns
  cases hfree
  obtain ⟨⟨ok, privkey⟩, hpriv, hrest⟩ := bind_eq_returns.mp hrest
  cases ok with
  | false => cases hrest
  | true =>
    obtain ⟨ed25519publickey, hfree, hrest⟩ := bind_eq_returns.mp hrest
    cases hfree
    obtain ⟨⟨ok, ed25519publickey⟩, hed, heq⟩ := bind_eq_returns.mp hrest
    cases heq
    exact ⟨hpriv, ok, hed⟩

theorem fsReadFile_returns (growby : Nat) (fopen : Bytes → Option KeyFile) (fname : Bytes)
    (hmemory : ∀ n, memory n ≠ none) (hgrow : 0 < growby) (hsmall : growby ≤ 4096) :
    ∃ ok st', fsReadFile memory (stringLazyinit growby) fopen fname = returns (ok, st') ∧
      ∀ file, fopen fname = some file → ok = !file.ferror := by
  cases hfile : fopen fname with
  | none =>
    refine ⟨false, stringLazyinit growby, ?_, fun _ hsome => nomatch hsome⟩
    rw [fsReadFile, hfile]
  | some file =>
    obtain ⟨st', hst'⟩ := readChunks_returns file.ferror hmemory
      (filled_empty (by omega : growby < 2 ^ 64)) hgrow hsmall file.length_lt
    refine ⟨!file.ferror, st', ?_, fun _ hsome => by cases hsome; rfl⟩
    rw [fsReadFile, hfile]
    exact hst'

/-- Where there is memory config_init gets as far as the end of the keys. -/
theorem configInitKeys_returns (hmemory : ∀ n, memory n ≠ none)
    (hpriv : fopen (rsaKeyName basePath) = some priv) (hread : priv.ferror = false) :
    ∃ config, configInitKeys memory fopen (configAlloc basePath) = returns (true, config) := by
  obtain ⟨ok, privkey, hprivkey, hok⟩ := fsReadFile_returns 2048 fopen
    (rsaKeyName basePath) hmemory (by omega) (by omega)
  obtain ⟨ok', ed25519publickey, hed, -⟩ := fsReadFile_returns 1024 fopen
    (ed25519KeyName basePath) hmemory (by omega) (by omega)
  obtain rfl : ok = true := by rw [hok priv hpriv, hread]; rfl
  have hfree : ∀ growby, stringFree (stringLazyinit growby) = returns (stringLazyinit growby) :=
    fun _ => rfl
  refine ⟨⟨basePath, privkey, ed25519publickey⟩, ?_⟩
  simp only [configInitKeys, configAlloc, hfree, returns_bind, hprivkey, hed, if_true]
  rfl

/-- What the two users of the keys are given where the text is terminated. -/
theorem Terminated.loadPrivkey {ssl : OpenSsl} (h : Terminated config.privkey text) :
    loadPrivkey ssl config = returns (cryptoLoadKey ssl text true) := by
  rw [KeyFiles.loadPrivkey, h.seen]
  rfl

theorem Terminated.ownEd25519Lines (h : Terminated config.ed25519publickey text)
    (hne : text ≠ []) : ownEd25519Lines config = returns (text ++ ascii "\n") := by
  have hseen := h.seen
  unfold KeyFiles.ownEd25519Lines
  split
  · rename_i hnull
    rw [hnull] at hseen
    cases hseen
  · rw [hseen]
    simp [hne]

/-- Exactly the lengths that leave a byte of the last growth step free. -/
theorem terminated_iff (hpriv : fopen (rsaKeyName basePath) = some priv)
    (hreturns : configInitKeys memory fopen (configAlloc basePath) = returns (true, config)) :
    (Terminated config.privkey priv.content ∧
      ∀ ed, fopen (ed25519KeyName basePath) = some ed → config.ed25519publickey.s ≠ .null →
        Terminated config.ed25519publickey ed.content) ↔
      ¬ 2048 ∣ priv.content.length ∧
        ∀ ed, fopen (ed25519KeyName basePath) = some ed → ed.content ≠ [] →
          ¬ 1024 ∣ ed.content.length := by
  obtain ⟨hreadPriv, ok, hreadEd⟩ := configInitKeys_reads hreturns
  obtain ⟨-, hprivkey, -⟩ := fsReadFile_filled (by omega) (by omega) hpriv hreadPriv
  refine and_congr (hprivkey.terminated_iff_not_dvd priv.nul_free) (forall_congr' fun ed => ?_)
  refine imp_congr_right fun hed => ?_
  obtain ⟨-, hedkey, hnull⟩ := fsReadFile_filled (by omega) (by omega) hed hreadEd
  exact imp_congr (not_congr hnull) (hedkey.terminated_iff_not_dvd ed.nul_free)

theorem plenty_grants (n : Nat) : plenty n ≠ none := Option.some_ne_none _

/-- A file that is read in one chunk. -/
def letters (n : Nat) (hpos : 0 < n) (hle : n ≤ 4096) : KeyFile where
  chunks := [List.replicate n 65]
  ferror := false
  chunk_length := by simp [hpos, hle]
  nul_free := by simp
  length_lt := by
    rw [List.flatten_singleton, List.length_replicate]
    omega

def onlyPrivkey (file : KeyFile) : Bytes → Option KeyFile :=
  fun fname => if fname = rsaKeyName (ascii "/etc/tinc/vpn") then some file else none

theorem terminated_one : ∃ config,
    configInitKeys plenty (onlyPrivkey (letters 1 (by decide) (by decide)))
      (configAlloc (ascii "/etc/tinc/vpn")) = returns (true, config) ∧
      Terminated config.privkey [65] := by
  have hfile : onlyPrivkey (letters 1 (by decide) (by decide))
      (rsaKeyName (ascii "/etc/tinc/vpn")) = some (letters 1 (by decide) (by decide)) := if_pos rfl
  obtain ⟨config, hreturns⟩ :=
    configInitKeys_returns plenty_grants hfile rfl
  refine ⟨config, hreturns, ((terminated_iff hfile hreturns).mpr ⟨by decide, ?_⟩).1⟩
  intro ed hed
  have hmissing : onlyPrivkey (letters 1 (by decide) (by decide))
      (ed25519KeyName (ascii "/etc/tinc/vpn")) = none := if_neg (by decide +kernel)
  cases hmissing.symm.trans hed

/-- A key of 2048 bytes fills its buffer. -/
theorem not_terminated_full : ∃ config,
    configInitKeys plenty (onlyPrivkey (letters 2048 (by decide) (by decide)))
      (configAlloc (ascii "/etc/tinc/vpn")) = returns (true, config) ∧
      ¬ Terminated config.privkey (List.replicate 2048 65) := by
  have hfile : onlyPrivkey (letters 2048 (by decide) (by decide))
      (rsaKeyName (ascii "/etc/tinc/vpn")) = some (letters 2048 (by decide) (by decide)) :=
    if_pos rfl
  obtain ⟨config, hreturns⟩ :=
    configInitKeys_returns plenty_grants hfile rfl
  obtain ⟨hread, -⟩ := configInitKeys_reads hreturns
  obtain ⟨-, hfilled, -⟩ := fsReadFile_filled (by omega) (by omega) hfile hread
  refine ⟨config, hreturns, fun hterminated => ?_⟩
  have hcontent : (letters 2048 (by decide) (by decide)).content = List.replicate 2048 65 :=
    List.flatten_singleton
  rw [← hcontent] at hterminated
  have hnot := (hfilled.terminated_iff_not_dvd (KeyFile.nul_free _)).mp hterminated
  rw [hcontent, List.length_replicate] at hnot
  exact hnot (Nat.dvd_refl 2048)

end ChaosVpn.KeyFiles
