import ChaosVpn.FetchAndApply

/-! The signature gate. With a key to verify with, the parser only gets texts that
were verified in some call, or what the stored file held at the start. -/

namespace ChaosVpn.SignatureGate
open CStrings StringBuffer Libc Settings RequestConfig FetchAndApply

/-- A call confirmed the signature of the text. -/
def Verified (config : Config) (calls : List Call) (text : Bytes) : Prop :=
  ∃ c ∈ calls, Confirms c.input.ssl config.masterdataSignkey c.out.verify text

/-- Verified, or stored before the first call. -/
def Trusted (config : Config) (tmpconf : Option Bytes) (calls : List Call) (text : Bytes) : Prop :=
  Verified config calls text ∨ tmpconf = some text

/-- A failed save leaves nothing of its file. -/
def UnlinkSucceeds (c : Call) : Prop := ∀ left, c.input.save = .failed left → left = none

variable {libc : CLibrary} {config : Config} {client post : Client} {env : Env} {report : Report}
  {request : RequestResult} {text : StructString} {tmpconf : Option Bytes}

theorem Trusted.mono {before after : List Call} {text : Bytes}
    (h : Trusted config tmpconf before text) : Trusted config tmpconf (before ++ after) text := by
  rcases h with ⟨c, hc, hconfirms⟩ | hstored
  · exact .inl ⟨c, List.mem_append_left _ hc, hconfirms⟩
  · exact .inr hstored

theorem text_of_parsed (hout : Outcome libc config client env request report post)
    (h : report.parsed.isSome = true) : ∃ text, report.text = some text := by
  cases hout <;> simp_all

/-- Whatever a call compares is trusted, if the stored file was. -/
theorem fetched_trusted {before : List Call} (hkey : strIsEmpty config.masterdataSignkey = false)
    (hfile : ∀ file, client.tmpconf = some file → Trusted config tmpconf before file)
    (hrequest : mainRequestConfig config env.toRequestEnv client.ifmodifiedsince stringInit =
      some request) (hout : Outcome libc config client env request report post)
    (htext : fetchedText config env request client.tmpconf = some text) :
    Trusted config tmpconf (before ++ [⟨client, env, report, post⟩]) (content text) := by
  unfold fetchedText at htext
  split at htext
  · unfold mainLoadPreviousConfig at htext
    split at htext
    · cases htext
    · obtain ⟨file, hstored, rfl⟩ := Option.map_eq_some_iff.mp htext
      exact (hfile file hstored).mono
  · rename_i hretval
    obtain rfl := Option.some.inj htext
    have hconfirms := mainRequestConfig_verified hkey hrequest hretval
    rw [← hout.verify_eq] at hconfirms
    exact .inl ⟨_, List.mem_append_right _ (List.mem_singleton.mpr rfl), hconfirms⟩

/-- A save stores the text, leaves the file alone or leaves none. -/
theorem accepted_tmpconf (client : Client) (text : StructString)
    (hunlink : ∀ left, env.save = .failed left → left = none) :
    (accepted config env client text).tmpconf = client.tmpconf ∨
      (accepted config env client text).tmpconf = some (content text) ∨
        (accepted config env client text).tmpconf = none := by
  unfold accepted mainTempsaveFetchedConfig
  split
  · exact .inl rfl
  · cases hsave : env.save with
    | written => exact .inr (.inl rfl)
    | failed left => exact .inr (.inr (hunlink left hsave))

theorem tmpconf_trusted {t : List Call} {s : Client}
    (run : Run libc config (startClient tmpconf) t s)
    (hkey : strIsEmpty config.masterdataSignkey = false) (hunlink : ∀ c ∈ t, UnlinkSucceeds c) :
    ∀ file, s.tmpconf = some file → Trusted config tmpconf t file := by
  revert hunlink
  refine run.invariant (fun t s => (∀ c ∈ t, UnlinkSucceeds c) →
    ∀ file, s.tmpconf = some file → Trusted config tmpconf t file) ?_ ?_
  · exact fun _ file hfile => .inr hfile
  · intro t client env report post _ ih hstep hunlink file hfile
    obtain ⟨request, hrequest, hout⟩ := mainFetchAndApplyConfig_cases hstep
    have hold := ih fun c hc => hunlink c (by simp [hc])
    have hsave : UnlinkSucceeds ⟨client, env, report, post⟩ := hunlink _ (by simp)
    have hkept : client.tmpconf = some file →
        Trusted config tmpconf (t ++ [⟨client, env, report, post⟩]) file :=
      fun h => (hold file h).mono
    have haccepted : ∀ text parsed,
        fetchedText config env request client.tmpconf = some text →
        parsed.tmpconf = client.tmpconf →
        (accepted config env parsed text).tmpconf = some file →
        Trusted config tmpconf (t ++ [⟨client, env, report, post⟩]) file := by
      intro text parsed htext hparsed hstored
      rcases accepted_tmpconf parsed text hsave with h | h | h
      · exact hkept (hparsed ▸ h ▸ hstored)
      · rw [h] at hstored
        obtain rfl := Option.some.inj hstored
        exact fetched_trusted hkey hold hrequest hout htext
      · rw [h] at hstored
        cases hstored
    cases hout with
    | noText | unchanged => exact hkept hfile
    | refused text parsed _ _ hparsed =>
      rw [hparsed] at hfile
      exact hkept hfile
    | interrupted text parsed _ htext _ hparsed =>
      exact haccepted text parsed htext (by rw [hparsed]; rfl) hfile
    | applied text parsed htext _ hparsed =>
      exact haccepted text parsed htext (by rw [hparsed]; rfl) hfile

/-- Every text handed to main_parse_config was verified in this or an earlier call,
or is the one stored before the first. -/
theorem parsed_text_trusted (libc : CLibrary) (config : Config) (tmpconf : Option Bytes)
    (t : List Call) (s : Client) (run : Run libc config (startClient tmpconf) t s)
    (hkey : strIsNonempty config.masterdataSignkey = true)
    (hunlink : ∀ c ∈ t, UnlinkSucceeds c) :
    ∀ before c after, t = before ++ c :: after → c.out.parsed.isSome = true →
      ∃ text, c.out.text = some text ∧ Trusted config tmpconf (before ++ [c]) text := by
  intro before c after ht hparsed
  obtain ⟨run, hstep⟩ := run.split ht
  obtain ⟨request, hrequest, hout⟩ := mainFetchAndApplyConfig_cases hstep
  have hkey : strIsEmpty config.masterdataSignkey = false := by simpa [strIsNonempty] using hkey
  have hfile := tmpconf_trusted run hkey fun b hb => hunlink b (by simp [ht, hb])
  obtain ⟨text, htext⟩ := text_of_parsed hout hparsed
  rw [hout.text_eq] at htext
  obtain ⟨fetched, hfetched, rfl⟩ := Option.map_eq_some_iff.mp htext
  exact ⟨content fetched, by rw [hout.text_eq, hfetched]; rfl,
    fetched_trusted hkey hfile hrequest hout hfetched⟩

/-- A member of an archive whose header has blanks where nothing is read. -/
def memberBytes (name data : Bytes) : Bytes :=
  name ++ List.replicate (48 - name.length) space ++ decimal data.length ++
    List.replicate (10 - (decimal data.length).length) space ++ ArArchive.arfmag ++ data ++
      List.replicate (data.length % 2) lineFeed

def signedArchive (text : Bytes) : Bytes :=
  ArArchive.armag ++ memberBytes (ascii "chaosvpn-version") (ascii "3") ++
    memberBytes (ascii "rsa") (ascii "rs") ++ memberBytes (ascii "encrypted") text ++
      memberBytes (ascii "signature") (ascii "sig")

/-- Primitives that let everything through, for an rsa block of two bytes. -/
def signedEnv (text : Bytes) : Env where
  startfetchtime := 1000
  httpGet _ := ⟨HttpReceive.httpEok, 200, signedArchive text⟩
  ssl :=
    { pemReadPrivateKey _ := some ⟨2, List.length, fun _ => some (32 :: 16 :: List.replicate 48 0),
        fun _ _ => 0⟩
      pemReadPubkey _ := some ⟨2, List.length, fun _ => none, fun _ _ => 1⟩
      mdCtxCreate := true
      verifyInit := 1
      pkeyCtxNew := true
      pkeyDecryptInit := 1
      setRsaPadding := 1
      cipherCtxNew := true
      decryptInit _ _ := true
      decryptUpdate _ _ data := some data
      decryptFinal _ _ _ := some [] }
  zlib := ⟨true, fun data => [(.streamEnd, data)]⟩
  loadSucceeds := true
  save := .written
  cleanupSucceeds := true
  writeSucceeds _ := true

def signedConfig : Config :=
  { rawConfig with
    masterdataSignkey := some (ascii "key")
    tmpconffile := some (ascii "data.sav") }

def signedStep : Option (Report × Client) :=
  mainFetchAndApplyConfig plainLibrary signedConfig (startClient none) (signedEnv (ascii "[a]\n"))

theorem parsed_text_trusted_signed :
    ∃ c s, Run plainLibrary signedConfig (startClient none) [c] s ∧ c.out.retval = 1 ∧
      ∃ text, c.out.text = some text ∧ Trusted signedConfig none [c] text := by
  have hresult : signedStep.map (fun r => (r.1.retval, r.1.parsed.isSome)) = some (1, true) := by
    decide +kernel
  obtain ⟨⟨report, post⟩, hstep, hreport⟩ := Option.map_eq_some_iff.mp hresult
  obtain ⟨hretval, hparsed⟩ := Prod.mk.inj hreport
  have run : Run plainLibrary signedConfig (startClient none) _ post := .snoc .nil hstep
  refine ⟨_, post, run, hretval, parsed_text_trusted plainLibrary signedConfig none _ post run
    rfl ?_ [] _ [] rfl hparsed⟩
  intro c hc left hleft
  obtain rfl := List.mem_singleton.mp hc
  cases hleft

end ChaosVpn.SignatureGate
