import ChaosVpn.UpdateRuns

/-! What becomes of the client while nothing is downloaded, be it that the server is not
there, that it has nothing new, or that what it sends is rejected. The history of a client
goes on over restarts, of which only the stored text is left. -/

namespace ChaosVpn.Outages
open CStrings StringBuffer Libc Settings PeerParser RequestConfig FetchAndApply UpdateRuns

inductive Event
  | fetch (env : Env)
  | restart

/-- A new process has the file of the old one and nothing else of it. -/
def live (libc : CLibrary) (config : Config) (client : Client) :
    Event → Option (Option Report × Client)
  | .fetch env =>
    (mainFetchAndApplyConfig libc config client env).map fun (report, post) => (some report, post)
  | .restart => some (none, startClient client.tmpconf)

abbrev Moment := Runs.Call Client Event (Option Report)

abbrev History (libc : CLibrary) (config : Config) (start : Client) : List Moment → Client → Prop :=
  Runs.Run (live libc config) start

/-- No text comes from the server, but the stored one can be read, and the files written. -/
structure Outage (config : Config) (client : Client) (env : Env) : Prop where
  nothing : ∀ request, mainRequestConfig config env.toRequestEnv client.ifmodifiedsince stringInit =
    some request → request.retval < 1
  loads : env.loadSucceeds = true
  saves : env.save = .written
  completes : CompletesWrites env

def InOutage (config : Config) (e : Moment) : Prop :=
  ∀ env, e.input = .fetch env → Outage config e.pre env

def isRestart : Event → Bool
  | .fetch _ => false
  | .restart => true

/-- The process has not called main_fetch_and_apply_config yet. -/
def justStarted (before : List Moment) : Bool := before.getLast?.any fun e => isRestart e.input

variable {libc : CLibrary} {config : Config} {client post : Client} {env : Env} {report : Report}
  {stored : Bytes} {history before : List Moment}

/-- A process that has not called yet is a new one, the others have applied the stored text. -/
structure Holds (stored : Bytes) (before : List Moment) (client : Client) : Prop where
  file : client.tmpconf = some stored
  fresh : justStarted before = true → client = startClient (some stored)
  running : justStarted before = false →
    client.oldconfig.s.isSome = true ∧ content client.oldconfig = stored

/-- The text that a call falls back on. -/
theorem Outage.fetched (h : Outage config client env) (hpath : strIsEmpty config.tmpconffile = false)
    (hfile : client.tmpconf = some stored)
    (hcall : mainFetchAndApplyConfig libc config client env = some (report, post)) :
    ∃ request, fetchedText config env request client.tmpconf = some ⟨some stored⟩ ∧
      Outcome libc config client env request report post := by
  obtain ⟨request, hrequest, hout⟩ := mainFetchAndApplyConfig_cases hcall
  refine ⟨request, ?_, hout⟩
  rw [fetchedText, if_pos (h.nothing request hrequest), mainLoadPreviousConfig, hpath, h.loads, hfile]
  rfl

/-- With the stored text applied, a call changes nothing but maybe the time of the request. -/
theorem Outage.quiet (h : Outage config client env) (hpath : strIsEmpty config.tmpconffile = false)
    (hfile : client.tmpconf = some stored) (hallocated : client.oldconfig.s.isSome = true)
    (hold : content client.oldconfig = stored)
    (hcall : mainFetchAndApplyConfig libc config client env = some (report, post)) :
    report.retval = 0 ∧ report.writes = none ∧
      post = { client with ifmodifiedsince := post.ifmodifiedsince } := by
  obtain ⟨request, hfetched, hout⟩ := h.fetched hpath hfile hcall
  have hequal : ∀ text, fetchedText config env request client.tmpconf = some text →
      stringEquals text client.oldconfig = true := by
    intro text htext
    obtain rfl := Option.some.inj (hfetched.symm.trans htext)
    exact (stringEquals_iff rfl hallocated).mpr hold.symm
  cases hout with
  | noText hnone => rw [hfetched] at hnone; cases hnone
  | unchanged => exact ⟨rfl, rfl, rfl⟩
  | refused text _ htext hdiffers | interrupted text _ _ htext hdiffers
  | applied text _ htext hdiffers =>
    rw [hequal text htext] at hdiffers
    cases hdiffers

/-- A new process applies the stored text, and stores it again. -/
theorem Outage.restored (h : Outage config (startClient (some stored)) env)
    (hpath : strIsEmpty config.tmpconffile = false) (hown : config.peerid ∈ sectionNames stored)
    (hcall : mainFetchAndApplyConfig libc config (startClient (some stored)) env =
      some (report, post)) :
    report.retval = 1 ∧ report.writes = some (writeSteps.map (·, true)) ∧
      (∃ parsed, report.parsed = some (true, parsed) ∧
        parsed.peerConfig.map Prod.fst = parserParseConfig libc stored) ∧
      post.tmpconf = some stored ∧ post.oldconfig.s.isSome = true ∧
      content post.oldconfig = stored := by
  have hne : stored ≠ [] := by
    rintro rfl
    exact List.not_mem_nil hown
  obtain ⟨request, hfetched, hout⟩ := h.fetched hpath rfl hcall
  have htexts : ∀ text,
      fetchedText config env request (startClient (some stored)).tmpconf = some text →
        text = ⟨some stored⟩ := fun text htext => Option.some.inj (htext.symm.trans hfetched)
  cases hout with
  | noText hnone => rw [hfetched] at hnone; cases hnone
  | unchanged text htext hequal =>
    obtain rfl := htexts text htext
    exact absurd ((stringEquals_iff rfl rfl).mp hequal) hne
  | refused text parsed htext _ hparsed hnone =>
    obtain rfl := htexts text htext
    have hknown := ((reached_start config (some stored)).known_iff hparsed).mpr (.inr hown)
    rw [hnone] at hknown
    cases hknown
  | interrupted text parsed writes _ _ _ _ hfail => exact absurd h.completes hfail
  | applied text parsed htext _ hparsed =>
    obtain rfl := htexts text htext
    refine ⟨rfl, rfl, ⟨parsed, rfl, ?_⟩, ?_, rfl, rfl⟩
    · rw [hparsed, ← parsedPeers_fst (requested (startClient (some stored)) request)]
      rfl
    · simp [mainFreeParsedInfo, accepted, mainTempsaveFetchedConfig, hpath, h.saves, content]

/-! Over the whole outage -/

/-- The first call of a process applies the stored text, the others do nothing. -/
def Answers (libc : CLibrary) (stored : Bytes) (before : List Moment) (report : Report) : Prop :=
  if justStarted before then
    report.retval = 1 ∧ report.writes = some (writeSteps.map (·, true)) ∧
      ∃ parsed, report.parsed = some (true, parsed) ∧
        parsed.peerConfig.map Prod.fst = parserParseConfig libc stored
  else report.retval = 0 ∧ report.writes = none

theorem justStarted_snoc (before : List Moment) (e : Moment) :
    justStarted (before ++ [e]) = isRestart e.input := by
  simp [justStarted]

theorem Holds.restart (h : Holds stored before client) (out : Option Report) :
    Holds stored (before ++ [⟨client, .restart, out, startClient client.tmpconf⟩])
      (startClient client.tmpconf) := by
  rw [h.file]
  exact ⟨rfl, fun _ => rfl, fun hrunning => absurd hrunning (by simp [justStarted_snoc, isRestart])⟩

theorem Holds.fetch (h : Holds stored before client) (houtage : Outage config client env)
    (hpath : strIsEmpty config.tmpconffile = false) (hown : config.peerid ∈ sectionNames stored)
    (hcall : mainFetchAndApplyConfig libc config client env = some (report, post)) :
    Holds stored (before ++ [⟨client, .fetch env, some report, post⟩]) post ∧
      Answers libc stored before report := by
  have hnew : justStarted (before ++ [⟨client, .fetch env, some report, post⟩]) = false := by
    rw [justStarted_snoc, isRestart]
  rw [Answers]
  cases hstarted : justStarted before with
  | true =>
    obtain rfl := h.fresh hstarted
    obtain ⟨hretval, hwrites, hparsed, hfile, hallocated, hold⟩ :=
      houtage.restored hpath hown hcall
    exact ⟨⟨hfile, by simp [hnew], fun _ => ⟨hallocated, hold⟩⟩, hretval, hwrites, hparsed⟩
  | false =>
    obtain ⟨hallocated, hold⟩ := h.running hstarted
    obtain ⟨hretval, hwrites, hpost⟩ := houtage.quiet hpath h.file hallocated hold hcall
    rw [hpost]
    exact ⟨⟨h.file, by rw [← hpost]; simp [hnew], fun _ => ⟨hallocated, hold⟩⟩, hretval, hwrites⟩

theorem holds_of_history {start : Client} (hstart : Holds stored [] start)
    (hpath : strIsEmpty config.tmpconffile = false) (hown : config.peerid ∈ sectionNames stored)
    (hhistory : History libc config start history client)
    (houtage : ∀ e ∈ history, InOutage config e) : Holds stored history client := by
  revert houtage
  refine hhistory.invariant
    (fun t s => (∀ e ∈ t, InOutage config e) → Holds stored t s) (fun _ => hstart) ?_
  intro t client event out post _ ih hstep houtage
  have hholds := ih fun e he => houtage e (by simp [he])
  cases event with
  | restart =>
    cases hstep
    exact hholds.restart none
  | fetch env =>
    obtain ⟨⟨report, post'⟩, hcall, heq⟩ := Option.map_eq_some_iff.mp hstep
    cases heq
    have hlast : InOutage config ⟨client, .fetch env, some report, post⟩ :=
      houtage _ (by simp)
    exact (hholds.fetch (hlast env rfl) hpath hown hcall).1

/-- What an accepted text leaves, whether or not its files were written. -/
theorem holds_of_accepted {tmpconf : Option Bytes} {t : List Call} {parsed : Client}
    (run : Run libc config (startClient tmpconf) (t ++ [⟨client, env, report, post⟩]) post)
    (hpath : strIsEmpty config.tmpconffile = false) (hsaved : env.save = .written)
    (hstored : report.text = some stored) (hparsed : report.parsed = some (true, parsed)) :
    Holds stored [] post := by
  have hallocated := (reached run).allocated
  obtain ⟨-, hstep⟩ := run.split (rfl : _ = t ++ ⟨client, env, report, post⟩ :: [])
  obtain ⟨request, -, hout⟩ := mainFetchAndApplyConfig_cases hstep
  have hleft : post.tmpconf = some stored ∧ content post.oldconfig = stored := by
    dsimp only at hout
    cases hout with
    | noText | unchanged | refused => cases hparsed
    | interrupted | applied =>
      cases hstored
      simp [mainFreeParsedInfo, accepted, mainTempsaveFetchedConfig, hpath, hsaved]
  exact ⟨hleft.1, by simp [justStarted], fun _ => ⟨hallocated, hleft.2⟩⟩

def storingConfig : Config := { rawConfig with tmpconffile := some (ascii "/etc/tinc/chaos.stored") }

def silentEnv : Env :=
  { rawEnv [] (fun _ => true) with httpGet := fun _ => ⟨HttpReceive.httpEneterr, 0, []⟩ }

def storedText : Bytes := ascii "[a]\n"

def appliedClient (ifmodifiedsince : Int) : Client where
  peerConfig := []
  myPeer := some 0
  nextAddress := 1
  ifmodifiedsince := ifmodifiedsince
  oldconfig := ⟨some storedText⟩
  tmpconf := some storedText

end ChaosVpn.Outages
