import ChaosVpn.FetchAndApply
import ChaosVpn.HostsDirectory

/-! The directory of the host files after a text was applied. What was there before is
only gone where its file could be looked at and unlinked, since neither failure is one of
the cleanup. -/

namespace ChaosVpn.RemovedPeers
open CStrings StringBuffer Libc Settings PeerParser HostFile FetchAndApply HostsDirectory

/-- The files answer the cleanup, and then the writing of the peers in the list. -/
def FilesAnswer (libc : CLibrary) (config : Config) (env : Env) (outcomes : FileOutcomes)
    (before after : HostsPath) (report : Report) : Prop :=
  ∀ parsed, report.parsed = some (true, parsed) →
    env.cleanupSucceeds = (fsEmptyDir outcomes before).2 ∧
      tincWriteHosts libc config outcomes (fsEmptyDir outcomes before).1
        (parsed.peerConfig.map Prod.fst) = some (after, env.writeSucceeds .hosts)

def PlainNames (text : Bytes) : Prop :=
  (sectionNames text).Nodup ∧
    ∀ name ∈ sectionNames text, name ≠ [] ∧ slash ∉ name ∧ isDot name = false

/-- No file is left of a peer that the text does not have. -/
def OneFilePerSection (libc : CLibrary) (config : Config) (after : HostsPath) (text : Bytes) :
    Prop :=
  ∀ name contents, entriesOf after name = some (.regular contents) ↔
    ∃ peer ∈ parserParseConfig libc text, peer.name = name ∧
      tincGeneratePeerConfig libc config peer = some contents

/-- Every old file has a section or can be removed, the list has no other peers left
over, and no section has the name of a device. -/
def NothingLeft (client : Client) (outcomes : FileOutcomes) (before : HostsPath) (text : Bytes) :
    Prop :=
  (∀ name, isRegular (entriesOf before name) = true → name ∈ sectionNames text ∨
    Removed outcomes name) ∧
  (∀ i ∈ client.peerConfig, safeName i.1.name ∈ sectionNames text ∨
    entriesOf before (safeName i.1.name) = some .special) ∧
  ∀ name ∈ sectionNames text, entriesOf before name ≠ some .special

variable {libc : CLibrary} {config : Config} {client post : Client} {env : Env} {report : Report}
  {outcomes : FileOutcomes} {before after : HostsPath} {text name : Bytes}

/-- What a successful call leaves under a name. -/
theorem entriesOf_after {peers : List PeerConfig}
    (hclean : (fsEmptyDir outcomes before).2 = true)
    (hwrite : tincWriteHosts libc config outcomes (fsEmptyDir outcomes before).1 peers =
      some (after, true)) (name : Bytes) :
    entriesOf after name =
      if entriesOf before name = some .special then some .special
      else ((lastWritten libc config peers name).map Entry.regular).or
        (if isRegular (entriesOf before name) = true ∧ Removed outcomes name then none
          else entriesOf before name) := by
  rw [(writeHosts_spec peers name hwrite).2, entriesOf_fsMkdirP, fsEmptyDir_spec hclean]
  by_cases hspecial : entriesOf before name = some .special
  · simp [hspecial, isRegular]
  · rw [if_neg hspecial, if_neg]
    split
    · simp
    · exact hspecial

/-- The directory is right at one name exactly when nothing else is left there. -/
theorem entriesOf_after_iff {peers leftover : List PeerConfig}
    (hclean : (fsEmptyDir outcomes before).2 = true)
    (hwrite : tincWriteHosts libc config outcomes (fsEmptyDir outcomes before).1
      (leftover ++ peers) = some (after, true)) (name : Bytes) :
    (∀ contents, entriesOf after name = some (.regular contents) ↔
        lastWritten libc config peers name = some contents) ↔
      (isRegular (entriesOf before name) = true →
        (∃ peer ∈ peers, safeName peer.name = name) ∨ Removed outcomes name) ∧
      ((∃ peer ∈ leftover, safeName peer.name = name) →
        (∃ peer ∈ peers, safeName peer.name = name) ∨
          entriesOf before name = some .special) ∧
      ((∃ peer ∈ peers, safeName peer.name = name) → entriesOf before name ≠ some .special) := by
  obtain ⟨hleftover, hpeers⟩ :=
    List.forall_mem_append.mp (writeHosts_spec _ name hwrite).1
  rw [entriesOf_after hclean hwrite, lastWritten_append leftover hpeers,
    ← isSome_lastWritten hpeers, ← isSome_lastWritten hleftover]
  by_cases hspecial : entriesOf before name = some .special
  · cases lastWritten libc config peers name <;> simp [hspecial, isRegular]
  · rw [if_neg hspecial]
    cases lastWritten libc config peers name with
    | some contents => simp [hspecial]
    | none =>
      cases lastWritten libc config leftover name with
      | some contents => simp [hspecial]
      | none =>
        by_cases hremoved : Removed outcomes name
        · cases hentry : entriesOf before name with
          | none => simp [isRegular]
          | some entry => cases entry <;> simp [isRegular, hremoved]
        · cases hentry : entriesOf before name with
          | none => simp [isRegular]
          | some entry => cases entry <;> simp [isRegular, hremoved]

/-- After a call that succeeds there is one file for each section exactly when nothing
was left over. -/
theorem oneFilePerSection_iff
    (hcall : mainFetchAndApplyConfig libc config client env = some (report, post))
    (hsuccess : report.retval = 1) (htext : report.text = some text)
    (hfiles : FilesAnswer libc config env outcomes before after report)
    (hplain : PlainNames text) :
    OneFilePerSection libc config after text ↔ NothingLeft client outcomes before text := by
  obtain ⟨request, -, hout⟩ := mainFetchAndApplyConfig_cases hcall
  cases hout with
  | noText => cases hsuccess
  | unchanged => cases hsuccess
  | refused => cases hsuccess
  | interrupted => cases hsuccess
  | applied text' parsed _ _ hparsed _ hcomplete =>
    obtain rfl : content text' = text := Option.some.inj htext
    obtain ⟨hclean, hwrite⟩ := hfiles parsed rfl
    rw [hcomplete.1] at hclean
    have hlist : parsed.peerConfig.map Prod.fst =
        client.peerConfig.map Prod.fst ++ parserParseConfig libc (content text') := by
      rw [hparsed, ← parsedPeers_fst client]
      exact List.map_append
    rw [hlist, hcomplete.2 .hosts (by decide)] at hwrite
    have hgenerated := (List.forall_mem_append.mp
      (writeHosts_spec _ [] hwrite).1).2
    have hsection : ∀ name, (∃ peer ∈ parserParseConfig libc (content text'),
        safeName peer.name = name) ↔ name ∈ sectionNames (content text') := by
      intro name
      have hmem : name ∈ sectionNames (content text') ↔
        ∃ p ∈ parserParseConfig libc (content text'), p.name = name := mem_sectionNames_iff
      rw [hmem]
      refine exists_congr fun peer => and_congr_right fun hpeer => ?_
      rw [safeName_of_plain (hplain.2 _ (mem_sectionNames_iff.mpr ⟨peer, hpeer, rfl⟩)).2.1]
    have hname : ∀ name, _ := entriesOf_after_iff hclean.symm hwrite
    simp only [hsection, lastWritten_section hgenerated hplain.1 fun n hn => (hplain.2 n hn).2.1]
      at hname
    unfold OneFilePerSection NothingLeft
    rw [forall_congr' hname, forall_and, forall_and]
    refine and_congr_right fun _ => and_congr_left fun _ => ?_
    simp only [List.mem_map, forall_exists_index, and_imp]
    exact ⟨fun h i hi => h _ _ i hi rfl rfl, fun h name peer i hi hpeer hname => by
      rw [← hname, ← hpeer]
      exact h i hi⟩

/-! A network of two peers that loses one -/

def tinc10Config : Config := { rawConfig with tincdVersion := some (ascii "1.0.36") }

def smallerEnv : Env := rawEnv (ascii "[a]\n") fun _ => true

def twoHosts : HostsPath :=
  .directory fun name =>
    if name = ascii "a" ∨ name = ascii "b" then some (.regular (ascii "Port=655\n")) else none

/-- Everything succeeds, but maybe not the unlinking. -/
def unlinkOutcomes (unlink : Bool) : FileOutcomes where
  getcwd := true
  statDirectory := true
  chdir := true
  opendir := true
  listing := [ascii ".", ascii "..", ascii "b", ascii "a"]
  statEntry _ := true
  unlink _ := unlink
  mkdir := false
  openFile _ := true
  written _ := 4096

def smallerCall : Option (Report × Client) :=
  mainFetchAndApplyConfig plainLibrary tinc10Config (startClient none) smallerEnv

def smallerHosts (unlink : Bool) : Option (HostsPath × Bool) :=
  tincWriteHosts plainLibrary tinc10Config (unlinkOutcomes unlink)
    (fsEmptyDir (unlinkOutcomes unlink) twoHosts).1
    (parserParseConfig plainLibrary (ascii "[a]\n"))

theorem smallerCall_applied (unlink : Bool)
    (h : (smallerHosts unlink).map Prod.snd = some true) :
    ∃ report post after, smallerCall = some (report, post) ∧ report.retval = 1 ∧
      report.text = some (ascii "[a]\n") ∧
        FilesAnswer plainLibrary tinc10Config smallerEnv (unlinkOutcomes unlink) twoHosts after
          report ∧ smallerHosts unlink = some (after, true) := by
  obtain ⟨⟨after, ok⟩, hwrite, hok⟩ := Option.map_eq_some_iff.mp h
  obtain rfl : ok = true := hok
  have hcall : smallerCall = some (_, _) := rfl
  refine ⟨_, _, after, hcall, rfl, rfl, fun parsed hparsed => ?_, hwrite⟩
  obtain rfl := (Prod.mk.inj (Option.some.inj hparsed)).2
  exact ⟨by cases unlink <;> rfl, hwrite⟩

theorem plainNames_smaller : PlainNames (ascii "[a]\n") := by
  refine ⟨by decide, ?_⟩
  decide

theorem oneFilePerSection_smaller :
    ∃ report post after,
      mainFetchAndApplyConfig plainLibrary tinc10Config (startClient none) smallerEnv =
        some (report, post) ∧
      FilesAnswer plainLibrary tinc10Config smallerEnv (unlinkOutcomes true) twoHosts after report ∧
        OneFilePerSection plainLibrary tinc10Config after (ascii "[a]\n") := by
  obtain ⟨report, post, after, hcall, hsuccess, htext, hfiles, -⟩ :=
    smallerCall_applied true (by decide +kernel)
  refine ⟨report, post, after, hcall, hfiles,
    (oneFilePerSection_iff hcall hsuccess htext hfiles plainNames_smaller).mpr
      ⟨fun name hregular => ?_, fun i hi => absurd hi List.not_mem_nil, by decide⟩⟩
  by_cases hname : name = ascii "a" ∨ name = ascii "b"
  · rcases hname with rfl | rfl
    · exact .inl (by decide)
    · exact .inr (by decide)
  · have hnone : entriesOf twoHosts name = none := if_neg hname
    rw [hnone] at hregular
    cases hregular

/-- The file of a peer that the text no longer has stays when it cannot be unlinked. -/
theorem removed_peer_keeps_file :
    ∃ report post after,
      mainFetchAndApplyConfig plainLibrary tinc10Config (startClient none) smallerEnv =
        some (report, post) ∧
      report.retval = 1 ∧ report.text = some (ascii "[a]\n") ∧
      FilesAnswer plainLibrary tinc10Config smallerEnv (unlinkOutcomes false) twoHosts after
        report ∧
      PlainNames (ascii "[a]\n") ∧
        ¬ OneFilePerSection plainLibrary tinc10Config after (ascii "[a]\n") := by
  obtain ⟨report, post, after, hcall, hsuccess, htext, hfiles, hwrite⟩ :=
    smallerCall_applied false (by decide +kernel)
  refine ⟨report, post, after, hcall, hsuccess, htext, hfiles, plainNames_smaller, fun hexact => ?_⟩
  have hentry : (smallerHosts false).map (fun x => entriesOf x.1 (ascii "b")) =
      some (some (.regular (ascii "Port=655\n"))) := by decide +kernel
  rw [hwrite] at hentry
  obtain ⟨peer, hpeer, hname, -⟩ := (hexact _ _).mp (Option.some.inj hentry)
  have hsection : ascii "b" ∈ sectionNames (ascii "[a]\n") :=
    mem_sectionNames_iff.mpr ⟨peer, hpeer, hname⟩
  revert hsection
  decide

end ChaosVpn.RemovedPeers
