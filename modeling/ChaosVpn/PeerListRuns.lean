import ChaosVpn.UpdateRuns

/-! The peer list and the own peer over runs. The list is only emptied by a call
that applied its text, the own peer never is taken back, and the parser adds to
whatever it finds. -/

namespace ChaosVpn.PeerListRuns
open CStrings StringBuffer Libc Settings PeerParser RequestConfig FetchAndApply UpdateRuns

variable {libc : CLibrary} {config : Config} {client post : Client} {env : Env} {report : Report}
  {request : RequestResult} {text : StructString} {before : List Call} {tmpconf : Option Bytes}

/-! The own peer -/

/-- An accepted text has the own section, and the own peer is one of the peers just
parsed from it; a text without the own section is an error. -/
def OwnPeerCurrent (libc : CLibrary) (config : Config) (c : Call) : Prop :=
  ∀ text, c.out.text = some text →
    (∀ parsed, c.out.parsed = some (true, parsed) →
      config.peerid ∈ sectionNames text ∧
        ∃ i ∈ parsedPeers libc c.pre text, i ∈ parsed.peerConfig ∧ i.1.name = config.peerid ∧
          parsed.myPeer = some i.2) ∧
    (config.peerid ∉ sectionNames text → c.out.retval = -1)

/-- The text has the own section, or it is a new one and no own peer was ever found. -/
def OwnPeerSound (config : Config) (client : Client) (env : Env) : Prop :=
  ∀ text, obtainedText config client env = some text →
    config.peerid ∈ sectionNames text ∨ text ≠ content client.oldconfig ∧ client.myPeer = none

/-- The own section of a text gives the own peer, whatever the list held before. -/
theorem myPeer_of_section (h : config.peerid ∈ sectionNames (content text)) :
    ∃ i ∈ parsedPeers libc client (content text),
      i ∈ (mainParseConfig libc config (requested client request) text).peerConfig ∧
        i.1.name = config.peerid ∧
          (mainParseConfig libc config (requested client request) text).myPeer = some i.2 := by
  have hown : ∃ i ∈ parsedPeers libc (requested client request) (content text),
      i.1.name = config.peerid := (exists_own_parsedPeers _ _).mpr h
  obtain ⟨i, hi, hname, hfound⟩ :=
    findOwnPeer_mem (findOwnPeer config client.peerConfig client.myPeer) hown
  exact ⟨i, hi, List.mem_append_right _ hi, hname, (findOwnPeer_append _ _ _).trans hfound⟩

theorem ownPeerCurrent_iff_sound (hreached : Reached config before client)
    (hrequest : mainRequestConfig config env.toRequestEnv client.ifmodifiedsince stringInit =
      some request) (hout : Outcome libc config client env request report post) :
    OwnPeerCurrent libc config ⟨client, env, report, post⟩ ↔ OwnPeerSound config client env := by
  rw [OwnPeerSound, obtainedText_eq hrequest, ← hout.text_eq]
  cases hout with
  | noText => simp [OwnPeerCurrent]
  | unchanged text htext hequal =>
    have heq := (hreached.equal_iff hrequest htext).mp hequal
    simp [OwnPeerCurrent, heq]
  | refused text parsed htext hequal hparsed hpeer =>
    have hnew := hreached.differs hrequest htext hequal
    have hunknown := mt (hreached.known_iff hparsed).mpr (by simp [hpeer])
    simp_all [OwnPeerCurrent]
  | interrupted text parsed writes htext hequal hparsed hpeer
  | applied text parsed htext hequal hparsed hpeer =>
    have hnew := hreached.differs hrequest htext hequal
    have hknown := (hreached.known_iff hparsed).mp hpeer
    constructor
    · intro hcurrent text' htext'
      exact .inl ((hcurrent text' htext').1 parsed rfl).1
    · intro hsound text' htext'
      obtain rfl := Option.some.inj htext'
      have hown : config.peerid ∈ sectionNames (content text) := by
        rcases hsound (content text) rfl with hown | ⟨-, hnone⟩
        · exact hown
        · exact hknown.resolve_left (by rw [show client.myPeer = none from hnone]; simp)
      refine ⟨fun parsed' hparsed' => ⟨hown, ?_⟩, fun hno => absurd hown hno⟩
      obtain ⟨-, rfl⟩ := Prod.mk.inj (Option.some.inj hparsed')
      rw [hparsed]
      exact myPeer_of_section hown

/-- In every run, a call treats the own peer rightly exactly when its text has the
own section or comes before the first text that had one. -/
theorem ownPeerCurrent_iff (libc : CLibrary) (config : Config) (tmpconf : Option Bytes)
    (t : List Call) (s : Client) (run : Run libc config (startClient tmpconf) t s) :
    ∀ c ∈ t, OwnPeerCurrent libc config c ↔ OwnPeerSound config c.pre c.input := by
  intro c hc
  obtain ⟨before, after, ht⟩ := List.append_of_mem hc
  obtain ⟨run, hstep⟩ := run.split ht
  obtain ⟨request, hrequest, hout⟩ := mainFetchAndApplyConfig_cases hstep
  exact ownPeerCurrent_iff_sound (reached run) hrequest hout

/-- Two calls that apply their texts; the own name is `a`. -/
def twoTexts (first second : Bytes) : List Env :=
  [rawEnv first fun _ => true, rawEnv second fun _ => true]

theorem own_section_lost :
    ∃ t s, Run plainLibrary rawConfig (startClient none) t s ∧ t.map (·.out.retval) = [1, 1] ∧
      ¬ ∀ c ∈ t, OwnPeerCurrent plainLibrary rawConfig c := by
  refine ⟨_, _, Runs.run_of_execute
    (show Runs.execute _ _ (twoTexts (ascii "[a]\n") (ascii "[b]\n")) = _ from rfl), rfl,
    fun hcurrent => ?_⟩
  have hsecond := hcurrent _ (List.mem_cons_of_mem _ (List.mem_singleton.mpr rfl))
  exact absurd ((hsecond _ rfl).1 _ rfl).1 (by decide)

theorem own_section_kept :
    ∃ t s, Run plainLibrary rawConfig (startClient none) t s ∧ t.map (·.out.retval) = [1, 1] ∧
      ∀ c ∈ t, OwnPeerCurrent plainLibrary rawConfig c := by
  have run : Run plainLibrary rawConfig (startClient none) _ _ :=
    Runs.run_of_execute
      (show Runs.execute _ _ (twoTexts (ascii "[a]\n") (ascii "[b]\n[a]\n")) = _ from rfl)
  refine ⟨_, _, run, rfl, fun c hc =>
    (ownPeerCurrent_iff plainLibrary rawConfig none _ _ run c hc).mpr fun text htext => ?_⟩
  rcases List.mem_cons.mp hc with rfl | hc
  · obtain rfl : ascii "[a]\n" = text := Option.some.inj htext
    exact .inl (by decide)
  · obtain rfl := List.mem_singleton.mp hc
    obtain rfl : ascii "[b]\n[a]\n" = text := Option.some.inj htext
    exact .inl (by decide)

/-! The peer list -/

/-- Where the write steps start, the list is the peers of the text of this call, one
for each of its sections. -/
def ListCurrent (libc : CLibrary) (c : Call) : Prop :=
  ∀ writes text parsed, c.out.writes = some writes → c.out.text = some text →
    c.out.parsed = some (true, parsed) →
      parsed.peerConfig.map (·.1) = parserParseConfig libc text ∧
        parsed.peerConfig.map (·.1.name) = sectionNames text

/-- The call gets a text that is not the one it compares with. -/
def NewText (config : Config) (client : Client) (env : Env) (text : Bytes) : Prop :=
  obtainedText config client env = some text ∧ text ≠ content client.oldconfig

/-- The new text of the call is accepted and all its files can be written. -/
def Finishes (config : Config) (client : Client) (env : Env) : Prop :=
  ∃ text, NewText config client env text ∧
    (client.myPeer.isSome = true ∨ config.peerid ∈ sectionNames text) ∧ CompletesWrites env

/-- The new text of the call has sections, and the call does not finish. -/
def LeavesPeers (config : Config) (client : Client) (env : Env) : Prop :=
  (∃ text, NewText config client env text ∧ sectionNames text ≠ []) ∧ ¬ Finishes config client env

/-- Some call left peers, and none behind it finished. -/
def Unreleased (config : Config) (before : List Call) : Prop :=
  ∃ early b late, before = early ++ b :: late ∧ LeavesPeers config b.pre b.input ∧
    ∀ x ∈ late, ¬ Finishes config x.pre x.input

theorem unreleased_snoc (before : List Call) (c : Call) :
    Unreleased config (before ++ [c]) ↔
      LeavesPeers config c.pre c.input ∨
        ¬ Finishes config c.pre c.input ∧ Unreleased config before := by
  constructor
  · rintro ⟨early, b, late, hsplit, hleaves, hlate⟩
    rcases List.eq_nil_or_concat late with rfl | ⟨late, last, rfl⟩
    · obtain ⟨-, hlast⟩ := List.append_inj' hsplit rfl
      exact .inl ((List.cons.inj hlast).1 ▸ hleaves)
    · have hsplit' : before ++ [c] = (early ++ b :: late) ++ [last] := by simpa using hsplit
      obtain ⟨hbefore, hlast⟩ := List.append_inj' hsplit' rfl
      have hc := (List.cons.inj hlast).1
      exact .inr ⟨hc ▸ hlate last (by simp), early, b, late, hbefore, hleaves,
        fun x hx => hlate x (by simp [hx])⟩
  · rintro (hleaves | ⟨hunfinished, early, b, late, rfl, hleaves, hlate⟩)
    · exact ⟨before, c, [], rfl, hleaves, by simp⟩
    · refine ⟨early, b, late ++ [c], by simp, hleaves, fun x hx => ?_⟩
      rcases List.mem_append.mp hx with hx | hx
      · exact hlate x hx
      · exact List.mem_singleton.mp hx ▸ hunfinished

/-- A call finishes exactly when it returns 1. -/
theorem finishes_iff (hreached : Reached config before client)
    (hrequest : mainRequestConfig config env.toRequestEnv client.ifmodifiedsince stringInit =
      some request) (hout : Outcome libc config client env request report post) :
    Finishes config client env ↔ report.retval = 1 := by
  simp only [Finishes, NewText, obtainedText_eq hrequest]
  cases hout with
  | noText htext => simp [htext]
  | unchanged text htext hequal =>
    simp [htext, (hreached.equal_iff hrequest htext).mp hequal]
  | refused text parsed htext hequal hparsed hpeer =>
    have hunknown := mt (hreached.known_iff hparsed).mpr (by simp [hpeer])
    simp [htext, hunknown]
  | interrupted text parsed writes htext _ _ _ hfail => simp [htext, hfail]
  | applied text parsed htext hequal hparsed hpeer hcomplete =>
    have hknown := (hreached.known_iff hparsed).mp hpeer
    simp [htext, hreached.differs hrequest htext hequal, hknown, hcomplete]

theorem leavesPeers_iff (hreached : Reached config before client)
    (hrequest : mainRequestConfig config env.toRequestEnv client.ifmodifiedsince stringInit =
      some request) (hout : Outcome libc config client env request report post) :
    LeavesPeers config client env ↔ report.retval ≠ 1 ∧ report.parsed.isSome = true ∧
      ∃ text, report.text = some text ∧ sectionNames text ≠ [] := by
  rw [LeavesPeers, finishes_iff hreached hrequest hout, and_comm, and_congr_right_iff]
  intro _
  simp only [NewText, obtainedText_eq hrequest]
  cases hout with
  | noText htext => simp [htext]
  | unchanged text htext hequal =>
    simp [htext, (hreached.equal_iff hrequest htext).mp hequal]
  | refused text parsed htext hequal | interrupted text parsed writes htext hequal
  | applied text parsed htext hequal =>
    simp [htext, hreached.differs hrequest htext hequal]

theorem names_parsedPeers (client : Client) (text : Bytes) :
    (parsedPeers libc client text).map (·.1.name) = sectionNames text := by
  have hnames : (parserParseConfig libc text).map (·.name) = sectionNames text :=
    names_parserParseConfig text
  rw [← hnames, ← parsedPeers_fst client text, List.map_map]
  rfl

theorem parse_ne_nil_iff (libc : CLibrary) (config : Config) (client : Client)
    (text : StructString) :
    (mainParseConfig libc config client text).peerConfig ≠ [] ↔
      sectionNames (content text) ≠ [] ∨ client.peerConfig ≠ [] := by
  have hnames : (parsedPeers libc client (content text)).map (·.1.name) = _ := names_parsedPeers _ _
  rw [mainParseConfig, ← hnames, ne_eq, List.append_eq_nil_iff, not_and_or, ne_eq,
    List.map_eq_nil_iff, or_comm]

/-- The list is empty between calls unless peers are left over. -/
theorem peerConfig_ne_nil_iff {t : List Call} {s : Client}
    (run : Run libc config (startClient tmpconf) t s) :
    s.peerConfig ≠ [] ↔ Unreleased config t := by
  refine run.invariant (fun t s => s.peerConfig ≠ [] ↔ Unreleased config t) ?_ ?_
  · simp [startClient, Unreleased]
  · intro t client env report post run ih hstep
    obtain ⟨request, hrequest, hout⟩ := mainFetchAndApplyConfig_cases hstep
    have hparse := parse_ne_nil_iff libc config (requested client request)
    rw [unreleased_snoc, ← ih, leavesPeers_iff (reached run) hrequest hout,
      finishes_iff (reached run) hrequest hout]
    cases hout with
    | noText | unchanged => simp [requested]
    | refused text parsed _ _ hparsed =>
      rw [hparsed, hparse]
      simp [requested]
    | interrupted text parsed writes _ _ hparsed =>
      rw [accepted_peerConfig, hparsed, hparse]
      simp [requested]
    | applied => simp [mainFreeParsedInfo]

theorem listCurrent_iff_nil (hout : Outcome libc config client env request report post)
    (hstarted : report.writes.isSome = true) :
    ListCurrent libc ⟨client, env, report, post⟩ ↔ client.peerConfig = [] := by
  cases hout with
  | noText | unchanged | refused => cases hstarted
  | interrupted text parsed writes _ _ hparsed | applied text parsed _ _ hparsed =>
    obtain ⟨writes', hwrites⟩ := Option.isSome_iff_exists.mp hstarted
    have hlist : parsed.peerConfig =
        client.peerConfig ++ parsedPeers libc client (content text) := by
      rw [hparsed]
      rfl
    constructor
    · intro hcurrent
      have hnames := (hcurrent writes' _ parsed hwrites rfl rfl).2
      rw [hlist, List.map_append, names_parsedPeers] at hnames
      simpa using hnames
    · intro hnil writes text' parsed' _ htext' hparsed'
      obtain rfl := Option.some.inj htext'
      obtain ⟨-, rfl⟩ := Prod.mk.inj (Option.some.inj hparsed')
      rw [hlist, hnil, List.nil_append]
      exact ⟨parsedPeers_fst _ _, names_parsedPeers _ _⟩

/-- In every run, the write steps of a call start with the peers of its text exactly
when no earlier call left peers that no later one freed. -/
theorem listCurrent_iff (libc : CLibrary) (config : Config) (tmpconf : Option Bytes)
    (t : List Call) (s : Client) (run : Run libc config (startClient tmpconf) t s) :
    ∀ before c after, t = before ++ c :: after → c.out.writes.isSome = true →
      (ListCurrent libc c ↔ ¬ Unreleased config before) := by
  intro before c after ht hstarted
  obtain ⟨run, hstep⟩ := run.split ht
  obtain ⟨request, -, hout⟩ := mainFetchAndApplyConfig_cases hstep
  rw [← peerConfig_ne_nil_iff run, not_not]
  exact listCurrent_iff_nil hout hstarted

/-- The first call cannot write the hosts directory, the second one gets a new text. -/
def interruptedThenNew (succeeds : WriteStep → Bool) : List Env :=
  [rawEnv (ascii "[a]\n") succeeds, rawEnv (ascii "[a]\n[b]\n") fun _ => true]

theorem peers_left_over :
    ∃ first second s, Run plainLibrary rawConfig (startClient none) [first, second] s ∧
      second.out.writes.isSome = true ∧ ¬ ListCurrent plainLibrary second ∧
        second.out.parsed.map (fun parsed => parsed.2.peerConfig.map (·.1.name)) =
          some [ascii "a", ascii "a", ascii "b"] := by
  refine ⟨_, _, _, Runs.run_of_execute
    (show Runs.execute _ _ (interruptedThenNew (· ≠ .hosts)) = _ from rfl), rfl,
    fun hcurrent => ?_, rfl⟩
  exact absurd (hcurrent _ _ _ rfl rfl rfl).2 (by decide)

theorem peers_released :
    ∃ first second s, Run plainLibrary rawConfig (startClient none) [first, second] s ∧
      ListCurrent plainLibrary second := by
  have run : Run plainLibrary rawConfig (startClient none) _ _ :=
    Runs.run_of_execute (show Runs.execute _ _ (interruptedThenNew fun _ => true) = _ from rfl)
  refine ⟨_, _, _, run, (listCurrent_iff plainLibrary rawConfig none _ _ run [_] _ [] rfl rfl).mpr
    fun hleft => ?_⟩
  have hfinishes : Finishes rawConfig (startClient none) (rawEnv (ascii "[a]\n") fun _ => true) :=
    ⟨ascii "[a]\n", ⟨rfl, by decide⟩, .inr (by decide), by decide⟩
  rcases (unreleased_snoc [] _).mp hleft with hleaves | ⟨hunfinished, -⟩
  · exact hleaves.2 hfinishes
  · exact hunfinished hfinishes

end ChaosVpn.PeerListRuns
