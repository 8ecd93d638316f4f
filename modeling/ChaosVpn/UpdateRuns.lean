import ChaosVpn.FetchAndApply

/-! Updates over runs of main_fetch_and_apply_config. The text of a call becomes
the one to compare with before its files are written, so a text whose writing
fails is taken for applied from then on. -/

namespace ChaosVpn.UpdateRuns
open CStrings StringBuffer Libc Settings PeerParser RequestConfig FetchAndApply

/-- What holds of every state that a run reaches. -/
structure Reached (config : Config) (before : List Call) (client : Client) : Prop where
  allocated : client.oldconfig.s.isSome = true
  own_known : ∀ i ∈ client.peerConfig, i.1.name = config.peerid → client.myPeer.isSome = true
  first : client.myPeer = none → client.oldconfig = stringInit
  applied : (∃ b ∈ before, b.out.retval = 1) → client.myPeer.isSome = true

variable {libc : CLibrary} {config : Config} {client post : Client} {env : Env} {report : Report}
  {request : RequestResult} {text : StructString} {before : List Call}

/-- The own peer is known behind the parser if it was before or has a section. -/
theorem Reached.known_iff (h : Reached config before client) {parsed : Client}
    (hparsed : parsed = mainParseConfig libc config (requested client request) text) :
    parsed.myPeer.isSome = true ↔
      client.myPeer.isSome = true ∨ config.peerid ∈ sectionNames (content text) := by
  have hnew : (∃ i ∈ parsedPeers libc (requested client request) (content text),
      i.1.name = config.peerid) ↔ config.peerid ∈ sectionNames (content text) :=
    exists_own_parsedPeers _ _
  rw [hparsed, mainParseConfig, findOwnPeer_isSome, ← hnew]
  simp only [List.mem_append, or_and_right, exists_or]
  constructor
  · rintro (hsome | ⟨i, hi, hname⟩ | hown)
    · exact .inl hsome
    · exact .inl (h.own_known i hi hname)
    · exact .inr hown
  · rintro (hsome | hown)
    · exact .inl hsome
    · exact .inr (.inr hown)

theorem own_known_parse (libc : CLibrary) (config : Config) (client : Client)
    (text : StructString) :
    ∀ i ∈ (mainParseConfig libc config client text).peerConfig, i.1.name = config.peerid →
      (mainParseConfig libc config client text).myPeer.isSome = true :=
  fun i hi hname => (findOwnPeer_isSome _ _).mpr (.inr ⟨i, hi, hname⟩)

theorem reached_start (config : Config) (tmpconf : Option Bytes) :
    Reached config [] (startClient tmpconf) :=
  ⟨rfl, by simp [startClient], fun _ => rfl, by simp⟩

/-- No call forgets the own peer. -/
theorem Reached.myPeer_kept (h : Reached config before client)
    (hout : Outcome libc config client env request report post)
    (hsome : client.myPeer.isSome = true) : post.myPeer.isSome = true := by
  cases hout with
  | noText | unchanged => exact hsome
  | refused text parsed _ _ hparsed => exact (h.known_iff hparsed).mpr (.inl hsome)
  | interrupted text parsed _ _ _ _ hpeer => rwa [accepted_myPeer]
  | applied text parsed _ _ _ hpeer => rwa [mainFreeParsedInfo, accepted_myPeer]

theorem Reached.step (h : Reached config before client)
    (hrequest : mainRequestConfig config env.toRequestEnv client.ifmodifiedsince stringInit =
      some request) (hout : Outcome libc config client env request report post) :
    Reached config (before ++ [⟨client, env, report, post⟩]) post := by
  have hallocated : ∀ {text}, fetchedText config env request client.tmpconf = some text →
      text.s.isSome = true :=
    fetchedText_allocated (mainRequestConfig_allocated hrequest)
  have hbefore : report.retval ≠ 1 →
      (∃ b ∈ before ++ [⟨client, env, report, post⟩], b.out.retval = 1) →
        post.myPeer.isSome = true := by
    rintro hretval ⟨b, hb, hone⟩
    rcases List.mem_append.mp hb with hb | hb
    · exact h.myPeer_kept hout (h.applied ⟨b, hb, hone⟩)
    · obtain rfl := List.mem_singleton.mp hb
      exact absurd hone hretval
  cases hout with
  | noText | unchanged =>
    exact ⟨h.allocated, h.own_known, h.first, hbefore (by simp)⟩
  | refused text parsed _ _ hparsed hpeer =>
    have hnone : client.myPeer = none := by
      by_contra hsome
      have hknown := (h.known_iff hparsed).mpr (.inl (Option.isSome_iff_ne_none.mpr hsome))
      simp [hpeer] at hknown
    refine ⟨?_, hparsed ▸ own_known_parse _ _ _ _, fun _ => ?_, hbefore (by simp)⟩
    · rw [hparsed]
      exact h.allocated
    · rw [hparsed]
      exact h.first hnone
  | interrupted text parsed writes htext _ _ hpeer =>
    have hknown : (accepted config env parsed text).myPeer.isSome = true := by
      rwa [accepted_myPeer]
    exact ⟨hallocated htext, fun _ _ _ => hknown,
      fun hnone => absurd hknown (by rw [hnone]; simp), fun _ => hknown⟩
  | applied text parsed htext _ _ hpeer =>
    have hknown : (mainFreeParsedInfo (accepted config env parsed text)).myPeer.isSome = true := by
      rwa [mainFreeParsedInfo, accepted_myPeer]
    exact ⟨hallocated htext, fun _ _ _ => hknown,
      fun hnone => absurd hknown (by rw [hnone]; simp), fun _ => hknown⟩

theorem reached {tmpconf : Option Bytes} {t : List Call} {s : Client}
    (run : Run libc config (startClient tmpconf) t s) : Reached config t s := by
  refine run.invariant (Reached config) (reached_start config tmpconf) ?_
  intro t s env report post _ h hstep
  obtain ⟨request, hrequest, hout⟩ := mainFetchAndApplyConfig_cases hstep
  exact h.step hrequest hout

/-! No update is lost -/

/-- An earlier call wrote all files of the text and said so. -/
def AppliedBefore (before : List Call) (text : Option Bytes) : Prop :=
  ∃ b ∈ before, b.out.text = text ∧ b.out.writes = some (writeSteps.map (·, true)) ∧
    b.out.retval = 1

/-- A text that counts as not changed was applied, and one that was accepted but not
applied differs from the text that the next one is compared with. -/
def Kept (before : List Call) (c : Call) : Prop :=
  (c.out.retval = 0 → AppliedBefore before c.out.text) ∧
    ∀ text parsed, c.out.text = some text → c.out.parsed = some (true, parsed) →
      c.out.retval = -1 → content c.post.oldconfig ≠ text

/-- No empty text comes in front of the first accepted one, and where a new text is
accepted the old host files can be removed and all write steps succeed. -/
def Applies (config : Config) (client : Client) (env : Env) : Prop :=
  ∀ text, obtainedText config client env = some text →
    (text = [] → client.myPeer.isSome = true) ∧
      (text ≠ content client.oldconfig →
        config.peerid ∈ sectionNames text ∨ client.myPeer.isSome = true → CompletesWrites env)

theorem obtainedText_eq
    (hrequest : mainRequestConfig config env.toRequestEnv client.ifmodifiedsince stringInit =
      some request) :
    obtainedText config client env =
      (fetchedText config env request client.tmpconf).map content := by
  rw [obtainedText, hrequest]
  rfl

theorem obtainedText_of_fetched
    (hrequest : mainRequestConfig config env.toRequestEnv client.ifmodifiedsince stringInit =
      some request) (htext : fetchedText config env request client.tmpconf = some text) :
    obtainedText config client env = some (content text) := by
  rw [obtainedText_eq hrequest, htext]
  rfl

theorem Reached.equal_iff (h : Reached config before client)
    (hrequest : mainRequestConfig config env.toRequestEnv client.ifmodifiedsince stringInit =
      some request) (htext : fetchedText config env request client.tmpconf = some text) :
    stringEquals text client.oldconfig = true ↔ content text = content client.oldconfig :=
  stringEquals_iff (fetchedText_allocated (mainRequestConfig_allocated hrequest) htext) h.allocated

theorem Reached.differs (h : Reached config before client)
    (hrequest : mainRequestConfig config env.toRequestEnv client.ifmodifiedsince stringInit =
      some request) (htext : fetchedText config env request client.tmpconf = some text)
    (hequal : stringEquals text client.oldconfig = false) :
    content text ≠ content client.oldconfig :=
  mt (h.equal_iff hrequest htext).mpr (by simp [hequal])

/-- A call that applies what it accepts completes its write steps for a new text. -/
theorem Reached.completes (h : Reached config before client) (happly : Applies config client env)
    (hrequest : mainRequestConfig config env.toRequestEnv client.ifmodifiedsince stringInit =
      some request) (htext : fetchedText config env request client.tmpconf = some text)
    (hequal : stringEquals text client.oldconfig = false) {parsed : Client}
    (hparsed : parsed = mainParseConfig libc config (requested client request) text)
    (hpeer : parsed.myPeer.isSome = true) : CompletesWrites env :=
  (happly (content text) (obtainedText_of_fetched hrequest htext)).2
    (h.differs hrequest htext hequal) ((h.known_iff hparsed).mp hpeer).symm

/-- Where every call applies what it accepts, the compared text is an applied one. -/
theorem oldconfig_applied {tmpconf : Option Bytes} {t : List Call} {s : Client}
    (run : Run libc config (startClient tmpconf) t s)
    (happlies : ∀ c ∈ t, Applies config c.pre c.input) :
    s.myPeer.isSome = true → AppliedBefore t (some (content s.oldconfig)) := by
  revert happlies
  refine run.invariant (fun t s => (∀ c ∈ t, Applies config c.pre c.input) →
    s.myPeer.isSome = true → AppliedBefore t (some (content s.oldconfig))) ?_ ?_
  · intro _ hsome
    cases hsome
  · intro t client env report post run ih hstep happlies hsome
    obtain ⟨request, hrequest, hout⟩ := mainFetchAndApplyConfig_cases hstep
    have ih := ih fun c hc => happlies c (by simp [hc])
    have happly : Applies config client env := happlies ⟨client, env, report, post⟩ (by simp)
    have hreached := reached run
    have hmono : AppliedBefore t (some (content client.oldconfig)) →
        AppliedBefore (t ++ [⟨client, env, report, post⟩]) (some (content client.oldconfig)) :=
      fun ⟨b, hb, hdone⟩ => ⟨b, by simp [hb], hdone⟩
    cases hout with
    | noText | unchanged => exact hmono (ih hsome)
    | refused text parsed _ _ hparsed hpeer => simp [hpeer] at hsome
    | interrupted text parsed writes htext hequal hparsed hpeer hfail =>
      exact absurd (hreached.completes happly hrequest htext hequal hparsed hpeer) hfail
    | applied text parsed =>
      exact ⟨_, List.mem_append_right _ (List.mem_singleton.mpr rfl), rfl, rfl, rfl⟩

theorem applies_of_kept {tmpconf : Option Bytes}
    (run : Run libc config (startClient tmpconf) before client)
    (hstep : mainFetchAndApplyConfig libc config client env = some (report, post))
    (hkept : Kept before ⟨client, env, report, post⟩) : Applies config client env := by
  obtain ⟨request, hrequest, hout⟩ := mainFetchAndApplyConfig_cases hstep
  have hreached := reached run
  intro text htext
  rw [obtainedText_eq hrequest] at htext
  obtain ⟨fetched, hfetched, rfl⟩ := Option.map_eq_some_iff.mp htext
  have hequal := hreached.equal_iff hrequest hfetched
  constructor
  · intro hempty
    by_contra hnone
    have hfirst := hreached.first (by simpa using hnone)
    have heq := hequal.mpr (by rw [hempty, hfirst]; rfl)
    cases hout with
    | noText hno => simp [hfetched] at hno
    | unchanged text htext heq' =>
      obtain ⟨b, hb, -, -, hone⟩ := hkept.1 rfl
      exact hnone (hreached.applied ⟨b, hb, hone⟩)
    | refused text parsed htext hne | interrupted text parsed writes htext hne
    | applied text parsed htext hne =>
      obtain rfl := Option.some.inj (hfetched.symm.trans htext)
      rw [heq] at hne
      cases hne
  · intro hnew hknown
    have hne : stringEquals fetched client.oldconfig = false :=
      Bool.eq_false_iff.mpr (mt hequal.mp hnew)
    cases hout with
    | noText hno => simp [hfetched] at hno
    | unchanged text htext heq =>
      obtain rfl := Option.some.inj (hfetched.symm.trans htext)
      rw [heq] at hne
      cases hne
    | refused text parsed htext _ hparsed hpeer =>
      obtain rfl := Option.some.inj (hfetched.symm.trans htext)
      have hsome := (hreached.known_iff hparsed).mpr hknown.symm
      simp [hpeer] at hsome
    | interrupted text parsed => exact absurd rfl (hkept.2 _ _ rfl rfl rfl)
    | applied _ _ _ _ _ _ hcomplete => exact hcomplete

theorem kept_of_applies {tmpconf : Option Bytes}
    (run : Run libc config (startClient tmpconf) before client)
    (hstep : mainFetchAndApplyConfig libc config client env = some (report, post))
    (hbefore : ∀ b ∈ before, Applies config b.pre b.input)
    (happlies : Applies config client env) : Kept before ⟨client, env, report, post⟩ := by
  obtain ⟨request, hrequest, hout⟩ := mainFetchAndApplyConfig_cases hstep
  have hreached := reached run
  have hold := oldconfig_applied run hbefore
  cases hout with
  | noText => exact ⟨by simp, by simp⟩
  | unchanged text htext hequal =>
    refine ⟨fun _ => ?_, by simp⟩
    have heq := (hreached.equal_iff hrequest htext).mp hequal
    have hcall := happlies (content text) (obtainedText_of_fetched hrequest htext)
    have hsome : client.myPeer.isSome = true := by
      by_contra hnone
      have hfirst := hreached.first (by simpa using hnone)
      exact hnone (hcall.1 (by rw [heq, hfirst]; rfl))
    exact heq ▸ hold hsome
  | refused text parsed => exact ⟨by simp, by simp⟩
  | interrupted text parsed writes htext hequal hparsed hpeer hfail =>
    exact absurd (hreached.completes happlies hrequest htext hequal hparsed hpeer) hfail
  | applied text parsed => exact ⟨by simp, by simp⟩

/-- Over a run no update is lost exactly when every call applies what it accepts. -/
theorem kept_iff_applies (libc : CLibrary) (config : Config) (tmpconf : Option Bytes)
    (t : List Call) (s : Client) (run : Run libc config (startClient tmpconf) t s) :
    (∀ before c after, t = before ++ c :: after → Kept before c) ↔
      ∀ c ∈ t, Applies config c.pre c.input := by
  constructor
  · intro hkept c hc
    obtain ⟨before, after, ht⟩ := List.append_of_mem hc
    obtain ⟨run, hstep⟩ := run.split ht
    exact applies_of_kept run hstep (hkept before c after ht)
  · intro happlies before c after ht
    obtain ⟨run, hstep⟩ := run.split ht
    exact kept_of_applies run hstep (fun b hb => happlies b (by simp [ht, hb]))
      (happlies c (by simp [ht]))

/-- Two calls for the same text, of which the first has the given write steps succeed. -/
def sameTextTwice (succeeds : WriteStep → Bool) : List Env :=
  [rawEnv (ascii "[a]\n") succeeds, rawEnv (ascii "[a]\n") fun _ => true]

theorem interrupted_update_lost :
    ∃ t s, Run plainLibrary rawConfig (startClient none) t s ∧
      t.map (·.out.retval) = [-1, 0] ∧
        ¬ ∀ before c after, t = before ++ c :: after → Kept before c := by
  refine ⟨_, _, Runs.run_of_execute
    (show Runs.execute _ _ (sameTextTwice (· ≠ .hosts)) = _ from rfl), rfl, fun hkept => ?_⟩
  obtain ⟨b, hb, -, -, hone⟩ := (hkept [_] _ [] rfl).1 rfl
  obtain rfl := List.mem_singleton.mp hb
  exact absurd hone (by decide)

theorem applies_rawEnv (client : Client) :
    Applies rawConfig client (rawEnv (ascii "[a]\n") fun _ => true) := by
  intro text htext
  obtain rfl : ascii "[a]\n" = text := Option.some.inj htext
  exact ⟨fun hempty => absurd hempty (by decide), fun _ _ => by decide⟩

theorem kept_sameTextTwice :
    ∃ t s, Run plainLibrary rawConfig (startClient none) t s ∧
      t.map (·.out.retval) = [1, 0] ∧
        ∀ before c after, t = before ++ c :: after → Kept before c := by
  have run : Run plainLibrary rawConfig (startClient none) _ _ :=
    Runs.run_of_execute (show Runs.execute _ _ (sameTextTwice fun _ => true) = _ from rfl)
  refine ⟨_, _, run, rfl, (kept_iff_applies plainLibrary rawConfig none _ _ run).mpr ?_⟩
  intro c hc
  rcases List.mem_cons.mp hc with rfl | hc
  · exact applies_rawEnv _
  · obtain rfl := List.mem_singleton.mp hc
    exact applies_rawEnv _

end ChaosVpn.UpdateRuns
