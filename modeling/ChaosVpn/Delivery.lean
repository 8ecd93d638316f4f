import ChaosVpn.BackendArchive
import ChaosVpn.BackendText
import ChaosVpn.MainLoop
import ChaosVpn.RemovedPeers

/-! From the peers of the backend to the host files that tincd reads: the text, its
archive, the download, the parser and the files in one line. -/

namespace ChaosVpn.Delivery
open CStrings StringBuffer Libc Settings HttpReceive PeerParser RequestConfig FetchAndApply
open HostFile HostsDirectory RemovedPeers BackendArchive BackendText Crypto ParserLines

/-- The peers of a network as its administrators set them up. -/
structure Network (libc : CLibrary) (peers : List (Bytes × BackendPeer)) : Prop where
  ids : (peers.map Prod.fst).Nodup
  wellFormed : ∀ q ∈ peers, WellFormedPeer libc q.1 q.2

/-- A round of the backend for this client, with the keys and sizes that the archive's
format asks for. -/
structure ServedTo (config : Config) (env : Env) (peers : List (Bytes × BackendPeer))
    (r : PeerRound) : Prop where
  config_eq : r.config = buildTextConfig peers
  own : ∃ peer, (config.peerid, peer) ∈ peers ∧ r.pubkey = peer.pubkey
  aeskey : r.aeskey.length = 32
  aesiv : r.aesiv.length = 16
  fits : ∀ f ∈ r.files, f.data.length < 10000000000
  signkey : strIsEmpty config.masterdataSignkey = false
  decodes : Decodes env.toRequestEnv ((stringGet config.privkey).getD [])
    (config.masterdataSignkey.getD []) r
  download : ∀ ifmodifiedsince,
    env.httpGet ifmodifiedsince = ⟨httpEok, 200, r.createPeerConfigs⟩

variable {libc : CLibrary} {config : Config} {client post : Client} {env : Env} {report : Report}
  {peers : List (Bytes × BackendPeer)} {r : PeerRound} {outcomes : FileOutcomes}
  {before after : HostsPath}

theorem ServedTo.request (h : ServedTo config env peers r) (ifmodifiedsince : Int) :
    ∃ request, mainRequestConfig config env.toRequestEnv ifmodifiedsince stringInit =
        some request ∧ request.retval = 1 ∧ content request.httpResponse = buildTextConfig peers := by
  have hempty : content stringInit = [] := rfl
  obtain ⟨hretval, hcontent⟩ :=
    openArchive_createPeerConfigs h.decodes h.fits h.aeskey h.aesiv h.signkey hempty
  simp only [mainRequestConfig, h.download, ne_eq, not_true_eq_false, if_false]
  exact ⟨_, rfl, hretval, (content_stringEnsurez _).trans (hcontent.trans h.config_eq)⟩

/-- The parser finds the peers in the order of their ids. -/
theorem Network.parsed (h : Network libc peers) :
    parserParseConfig libc (buildTextConfig peers) =
      (sortPeers peers).map fun q => receivedPeer q.1 q.2 := by
  have hpeers := h.wellFormed
  rw [parserParseConfig_buildTextConfig peers fun q hq => printable_of_wellFormed (hpeers q hq)]
  refine List.map_congr_left fun q hq => parsedPeer_wellFormed (hpeers q ?_)
  exact (sortPeers_perm peers).mem_iff.mp hq

theorem receivedPeer_name (id : Bytes) (peer : BackendPeer) : (receivedPeer id peer).name = id :=
  rfl

theorem Network.mem_sections (h : Network libc peers) {name : Bytes} :
    name ∈ sectionNames (buildTextConfig peers) ↔ name ∈ peers.map Prod.fst := by
  have hsections : name ∈ sectionNames (buildTextConfig peers) ↔
      ∃ p ∈ parserParseConfig libc (buildTextConfig peers), p.name = name := mem_sectionNames_iff
  rw [hsections, h.parsed]
  simp [receivedPeer_name, (sortPeers_perm peers).mem_iff]

/-- What a call with this download compares with the last text. -/
theorem ServedTo.fetched (h : ServedTo config env peers r) (client : Client) :
    ∃ request, mainRequestConfig config env.toRequestEnv client.ifmodifiedsince stringInit =
        some request ∧ request.httpResponse.s.isSome = true ∧
      content request.httpResponse = buildTextConfig peers ∧
      fetchedText config env request client.tmpconf = some request.httpResponse := by
  obtain ⟨request, hrequest, hretval, hcontent⟩ := h.request client.ifmodifiedsince
  refine ⟨request, hrequest, mainRequestConfig_allocated hrequest, hcontent, ?_⟩
  rw [fetchedText, if_neg (by omega)]

theorem ServedTo.outcome (h : ServedTo config env peers r) (libc : CLibrary) (client : Client) :
    ∃ request report post, mainFetchAndApplyConfig libc config client env = some (report, post) ∧
      request.httpResponse.s.isSome = true ∧
      content request.httpResponse = buildTextConfig peers ∧
      fetchedText config env request client.tmpconf = some request.httpResponse ∧
      Outcome libc config client env request report post := by
  obtain ⟨request, hrequest, hallocated, hcontent, hfetched⟩ := h.fetched client
  cases hcall : mainFetchAndApplyConfig libc config client env with
  | none =>
    simp only [mainFetchAndApplyConfig, hrequest, Option.map_some] at hcall
    cases hcall
  | some result =>
    obtain ⟨request', hrequest', hout⟩ := mainFetchAndApplyConfig_cases hcall
    obtain rfl : request = request' := Option.some.inj (hrequest.symm.trans hrequest')
    exact ⟨request, _, _, rfl, hallocated, hcontent, hfetched, hout⟩

/-- The own section is found in the new part of the list. -/
theorem Network.own_found (h : Network libc peers)
    (hown : ∃ peer, (config.peerid, peer) ∈ peers) {text : StructString}
    (htext : content text = buildTextConfig peers) (client : Client) :
    (mainParseConfig libc config client text).myPeer.isSome = true := by
  have hnew : ∃ i ∈ parsedPeers libc client (content text), i.1.name = config.peerid := by
    obtain ⟨peer, hpeer⟩ := hown
    rw [exists_own_parsedPeers, htext, h.mem_sections]
    exact List.mem_map_of_mem hpeer
  obtain ⟨i, hi, hname⟩ := hnew
  exact (findOwnPeer_isSome _ _).mpr (.inr ⟨i, List.mem_append_right _ hi, hname⟩)

/-- A new text that has the own peer is applied, and the list of its peers is what is
written. -/
theorem applied (h : ServedTo config env peers r) (hnetwork : Network libc peers)
    (hlist : client.peerConfig = []) (hallocated : client.oldconfig.s.isSome = true)
    (hnew : content client.oldconfig ≠ buildTextConfig peers) (hcomplete : CompletesWrites env) :
    ∃ report post parsed, mainFetchAndApplyConfig libc config client env = some (report, post) ∧
      report.retval = 1 ∧ report.parsed = some (true, parsed) ∧
      parsed.peerConfig.map Prod.fst =
        (sortPeers peers).map (fun q => receivedPeer q.1 q.2) ∧
      post.peerConfig = [] ∧ post.oldconfig.s.isSome = true ∧
      content post.oldconfig = buildTextConfig peers := by
  obtain ⟨request, report, post, hcall, hsome, hcontent, hfetched, hout⟩ := h.outcome libc client
  have hdiffers : stringEquals request.httpResponse client.oldconfig = false := by
    refine Bool.eq_false_iff.mpr fun hequal => hnew ?_
    rw [← (stringEquals_iff hsome hallocated).mp hequal, hcontent]
  cases hout with
  | noText hnone => rw [hfetched] at hnone; cases hnone
  | unchanged text htext hequal =>
    obtain rfl := Option.some.inj (hfetched.symm.trans htext)
    rw [hdiffers] at hequal
    cases hequal
  | refused text parsed htext _ hparsed hnone =>
    obtain rfl := Option.some.inj (hfetched.symm.trans htext)
    obtain ⟨peer, hpeer, -⟩ := h.own
    have hfound := hnetwork.own_found ⟨peer, hpeer⟩ hcontent (requested client request)
    rw [← hparsed, hnone] at hfound
    cases hfound
  | interrupted text parsed writes _ _ _ _ hfail => exact absurd hcomplete hfail
  | applied text parsed htext _ hparsed =>
    obtain rfl := Option.some.inj (hfetched.symm.trans htext)
    refine ⟨_, _, parsed, hcall, rfl, rfl, ?_, rfl, hsome, hcontent⟩
    have hempty : (requested client request).peerConfig = [] := hlist
    rw [hparsed, mainParseConfig, hempty, List.nil_append, parsedPeers_fst, hcontent,
      hnetwork.parsed]

variable (libc) in
/-- The same text again changes nothing. -/
theorem unchanged (h : ServedTo config env peers r) (hallocated : client.oldconfig.s.isSome = true)
    (hold : content client.oldconfig = buildTextConfig peers) :
    ∃ report request, mainFetchAndApplyConfig libc config client env =
        some (report, requested client request) ∧ report.retval = 0 ∧ report.writes = none := by
  obtain ⟨request, report, post, hcall, hsome, hcontent, hfetched, hout⟩ := h.outcome libc client
  have hequal : stringEquals request.httpResponse client.oldconfig = true :=
    (stringEquals_iff hsome hallocated).mpr (hcontent.trans hold.symm)
  have hclash : ∀ {text : StructString}, fetchedText config env request client.tmpconf = some text →
      stringEquals text client.oldconfig ≠ false := by
    intro text htext hdiffers
    obtain rfl := Option.some.inj (hfetched.symm.trans htext)
    rw [hequal] at hdiffers
    cases hdiffers
  cases hout with
  | noText hnone => rw [hfetched] at hnone; cases hnone
  | unchanged => exact ⟨_, request, hcall, rfl, rfl⟩
  | refused _ _ htext hdiffers | interrupted _ _ _ htext hdiffers | applied _ _ htext hdiffers =>
    exact absurd hdiffers (hclash htext)

/-- Every peer of the backend has its host file. -/
theorem hosts_written (hnetwork : Network libc peers) (hversion : config.tincdVersion.isSome = true)
    {list : List PeerConfig} (hlist : list = (sortPeers peers).map fun q => receivedPeer q.1 q.2)
    (hclean : (fsEmptyDir outcomes before).2 = true)
    (hwrite : tincWriteHosts libc config outcomes (fsEmptyDir outcomes before).1 list =
      some (after, true)) {q : Bytes × BackendPeer} (hq : q ∈ peers)
    (hspecial : entriesOf before q.1 ≠ some .special) :
    entriesOf after q.1 = some (.regular (hostText config (receivedPeer q.1 q.2))) := by
  have hgenerated : ∀ peer ∈ list, (tincGeneratePeerConfig libc config peer).isSome = true :=
    fun peer _ => by rw [tincGeneratePeerConfig_eq peer hversion]; rfl
  have hsafe : ∀ q ∈ peers, safeName q.1 = q.1 := fun q hq => safeName_of_plain fun hslash => by
    have hbyte := (hnetwork.wellFormed q hq).id_bytes slash hslash
    exact absurd hbyte (by decide)
  have hperm := sortPeers_perm peers
  have hnodup : (list.map fun peer => safeName peer.name).Nodup := by
    have hnames : list.map (fun peer => safeName peer.name) = (sortPeers peers).map Prod.fst := by
      rw [hlist, List.map_map]
      exact List.map_congr_left fun q hq => hsafe q (hperm.mem_iff.mp hq)
    rw [hnames]
    exact (hperm.map Prod.fst).nodup_iff.mpr hnetwork.ids
  have hlast : lastWritten libc config list q.1 =
      some (hostText config (receivedPeer q.1 q.2)) := by
    refine (lastWritten_eq_some_iff hgenerated hnodup).mpr ⟨receivedPeer q.1 q.2, ?_, hsafe q hq, ?_⟩
    · rw [hlist]
      exact List.mem_map_of_mem (hperm.mem_iff.mpr hq)
    · exact tincGeneratePeerConfig_eq _ hversion
  rw [entriesOf_after hclean hwrite, if_neg hspecial, hlast]
  rfl

/-! Round after round -/

/-- A call that downloads a round of the backend and can write what it accepts. -/
def Published (libc : CLibrary) (config : Config) (env : Env) : Prop :=
  CompletesWrites env ∧ ∃ peers r, ServedTo config env peers r ∧ Network libc peers

/-- Between the calls the list is empty, so that each call writes the peers of its own text. -/
theorem between_calls {tmpconf : Option Bytes} {t : List Call}
    (run : Run libc config (startClient tmpconf) t client)
    (hpublished : ∀ c ∈ t, Published libc config c.input) :
    client.peerConfig = [] ∧ client.oldconfig.s.isSome = true := by
  revert hpublished
  refine run.invariant (fun t client => (∀ c ∈ t, Published libc config c.input) →
    client.peerConfig = [] ∧ client.oldconfig.s.isSome = true) (fun _ => ⟨rfl, rfl⟩) ?_
  intro t client env report post _ ih hstep hpublished
  obtain ⟨hlist, hallocated⟩ := ih fun c hc => hpublished c (by simp [hc])
  have hlast : Published libc config env := hpublished ⟨client, env, report, post⟩ (by simp)
  obtain ⟨hcomplete, peers, r, hserved, hnetwork⟩ := hlast
  by_cases hold : content client.oldconfig = buildTextConfig peers
  · obtain ⟨_, request, hcall, -⟩ := unchanged libc hserved hallocated hold
    cases hstep.symm.trans hcall
    exact ⟨hlist, hallocated⟩
  · obtain ⟨_, _, _, hcall, -, -, -, hlist', hallocated', -⟩ :=
      applied hserved hnetwork hlist hallocated hold hcomplete
    cases hstep.symm.trans hcall
    exact ⟨hlist', hallocated'⟩

def officePeers : List (Bytes × BackendPeer) :=
  [(ascii "a",
    { gatewayhost := ascii "vpn.example.org"
      port := decimal 655
      primary := ascii "1"
      hidden := ascii "0"
      silent := []
      useTcpOnly := []
      indirectData := []
      networks := [ascii "172.31.0.0/24"]
      networks6 := []
      pingtest := []
      pingtest6 := []
      ed25519PublicKey := []
      pubkey := BackendArchive.samplePubkey })]

def officeCompressed : Bytes :=
  [120, 218, 109, 206, 75, 115, 130, 48, 24, 133, 225, 253, 247, 43, 210, 113, 217, 145, 18,
   173, 183, 5, 139, 64, 2, 147, 145, 139, 130, 88, 165, 211, 69, 132, 8, 168, 92, 6, 81, 228,
   223, 215, 182, 219, 158, 237, 121, 22, 239, 0, 6, 136, 132, 27, 207, 98, 46, 243, 201, 134,
   81, 100, 114, 155, 161, 33, 162, 30, 114, 189, 13, 114, 60, 202, 205, 61, 114, 136, 27, 18,
   219, 222, 191, 60, 57, 75, 242, 22, 85, 229, 165, 71, 121, 137, 226, 76, 84, 215, 123, 93,
   14, 69, 82, 228, 165, 146, 230, 237, 147, 0, 192, 167, 248, 130, 84, 180, 178, 19, 125, 86,
   93, 91, 237, 73, 20, 249, 16, 69, 125, 145, 74, 213, 164, 80, 87, 77, 171, 77, 39, 19, 168,
   155, 188, 16, 77, 175, 97, 200, 242, 36, 145, 165, 166, 66, 41, 219, 174, 106, 206, 26, 158,
   141, 148, 49, 86, 84, 69, 125, 27, 189, 195, 240, 103, 58, 179, 184, 139, 252, 128, 160, 85,
   168, 219, 220, 64, 75, 182, 255, 61, 192, 177, 82, 99, 191, 166, 187, 248, 214, 87, 152,
   207, 125, 88, 44, 226, 52, 188, 77, 207, 184, 239, 138, 200, 77, 56, 60, 72, 116, 187, 88,
   113, 177, 20, 250, 244, 54, 53, 79, 208, 10, 170, 239, 232, 130, 157, 44, 213, 95, 165, 235,
   28, 130, 109, 96, 22, 201, 193, 89, 29, 139, 227, 106, 166, 83, 24, 191, 94, 92, 35, 172,
   74, 238, 56, 122, 227, 69, 91, 48, 101, 24, 24, 42, 206, 62, 118, 252, 244, 200, 238, 6,
   224, 249, 189, 225, 164, 150, 14, 157, 133, 22, 142, 22, 80, 216, 99, 121, 8, 152, 65, 58,
   70, 200, 90, 211, 254, 186, 153, 75, 255, 173, 254, 6, 15, 75, 112, 51]

def officeSignature : Bytes :=
  [207, 172, 10, 134, 212, 142, 164, 156, 57, 172, 28, 222, 234, 88, 42, 199, 40, 169, 60, 157,
   6, 103, 5, 18, 232, 134, 71, 17, 3, 83, 50, 8, 78, 91, 255, 115, 236, 179, 134, 47, 53, 152,
   240, 79, 41, 111, 133, 137, 251, 143, 99, 198, 55, 170, 205, 254, 31, 39, 219, 65, 119, 126,
   95, 246, 216, 30, 191, 185, 13, 205, 157, 122, 225, 114, 108, 97, 106, 82, 154, 209, 108,
   152, 116, 88, 206, 123, 129, 202, 118, 23, 14, 138, 81, 38, 246, 228]

def officeEncrypted : Bytes :=
  [186, 73, 243, 152, 116, 89, 171, 126, 233, 43, 212, 140, 21, 192, 135, 95, 231, 40, 82, 242,
   95, 223, 65, 99, 129, 175, 1, 88, 224, 225, 167, 100, 168, 32, 16, 91, 238, 93, 126, 152,
   98, 213, 103, 68, 135, 200, 179, 174, 226, 253, 155, 162, 215, 131, 137, 173, 244, 23, 136,
   221, 206, 243, 74, 221, 244, 142, 173, 24, 58, 84, 6, 3, 145, 223, 21, 110, 177, 199, 179,
   146, 39, 164, 109, 108, 53, 3, 186, 196, 102, 72, 148, 167, 3, 111, 77, 117, 106, 66, 49,
   23, 61, 255, 178, 223, 118, 7, 225, 38, 14, 16, 145, 89, 139, 115, 37, 2, 153, 53, 228, 60,
   237, 191, 215, 4, 22, 232, 136, 107, 13, 193, 94, 9, 51, 25, 12, 145, 46, 77, 48, 141, 241,
   191, 82, 0, 0, 94, 21, 198, 180, 8, 99, 101, 206, 93, 203, 244, 64, 150, 5, 208, 216, 225,
   236, 32, 99, 101, 124, 173, 89, 35, 87, 38, 221, 189, 87, 27, 140, 146, 144, 188, 252, 114,
   252, 191, 152, 44, 41, 201, 224, 196, 200, 67, 203, 147, 199, 33, 214, 242, 107, 242, 165,
   76, 71, 15, 65, 184, 150, 45, 200, 85, 107, 132, 196, 170, 119, 70, 44, 206, 254, 253, 180,
   187, 10, 233, 99, 84, 154, 121, 29, 57, 7, 175, 243, 94, 188, 214, 21, 24, 24, 39, 209, 33,
   4, 241, 238, 131, 48, 129, 28, 214, 156, 110, 97, 7, 237, 197, 123, 87, 221, 139, 84, 95,
   100, 204, 116, 55, 239, 1, 247, 82, 231, 161, 49, 7, 28, 222, 94, 112, 196, 63, 137, 153,
   220, 113, 77, 21, 170, 150, 42, 109, 18, 245, 34, 122, 136, 220, 126, 171, 29, 60, 61, 166,
   54, 136, 116, 6, 241, 190, 204, 195, 34, 62, 101, 117, 185, 180, 91, 200, 36, 120]

def officeEncryptedSignature : Bytes :=
  [126, 64, 199, 180, 122, 74, 126, 28, 163, 25, 178, 14, 156, 50, 57, 119, 69, 183, 46, 222,
   232, 172, 185, 121, 71, 62, 155, 231, 104, 90, 28, 213, 195, 21, 62, 164, 253, 220, 245, 16,
   38, 125, 53, 163, 77, 201, 167, 255, 121, 161, 63, 161, 94, 254, 53, 148, 88, 234, 232, 79,
   54, 142, 186, 189, 154, 189, 132, 12, 29, 181, 229, 66, 35, 70, 79, 57, 157, 174, 181, 15,
   1, 38, 154, 22, 70, 32, 20, 89, 102, 80, 22, 130, 116, 169, 230, 43, 178, 67, 35, 133, 239,
   85, 253, 226, 49, 230, 28, 99, 109, 202, 217, 229]

def officeRound : PeerRound where
  crypto :=
    { compress data := if data = buildTextConfig officePeers then officeCompressed else []
      aesEncrypt data key iv :=
        if (key, iv) ≠ (sampleAeskey, sampleAesiv) then []
        else if data = officeCompressed then officeEncrypted
        else if data = officeSignature then officeEncryptedSignature
        else []
      rsaSignData data key :=
        if (data, key) = (buildTextConfig officePeers, samplePrivkey) then officeSignature else []
      rsaEncrypt data pubkey :=
        if (data, pubkey) = (rsaCleartext sampleAeskey sampleAesiv, BackendArchive.samplePubkey) then
          encryptedKeys
        else [] }
  stat := sampleRound.stat
  config := buildTextConfig officePeers
  signSecretKey := samplePrivkey
  pubkey := BackendArchive.samplePubkey
  aeskey := sampleAeskey
  aesiv := sampleAesiv

def officePkey : EvpPkey where
  size := 96
  decryptLength _ := 96
  decrypt ciphertext :=
    if ciphertext = encryptedKeys then some (rsaCleartext sampleAeskey sampleAesiv) else none
  verifyFinal data signature :=
    if (data, signature) = (buildTextConfig officePeers, officeSignature) then 1 else 0

/-- libcrypto keeps the last block back for the final call. -/
def officeEnv : Env where
  startfetchtime := 1000
  httpGet _ := ⟨httpEok, 200, officeRound.createPeerConfigs⟩
  ssl :=
    { pemReadPrivateKey pem := if pem = samplePrivkey then some officePkey else none
      pemReadPubkey pem := if pem = sampleSignkey then some officePkey else none
      mdCtxCreate := true
      verifyInit := 1
      pkeyCtxNew := true
      pkeyDecryptInit := 1
      setRsaPadding := 1
      cipherCtxNew := true
      decryptInit _ _ := true
      decryptUpdate key iv ciphertext :=
        if (key, iv) ≠ (sampleAeskey, sampleAesiv) then none
        else if ciphertext = officeEncrypted then some (officeCompressed.take 304)
        else if ciphertext = officeEncryptedSignature then some officeSignature
        else none
      decryptFinal key iv ciphertext :=
        if (key, iv) ≠ (sampleAeskey, sampleAesiv) then none
        else if ciphertext = officeEncrypted then some (officeCompressed.drop 304)
        else if ciphertext = officeEncryptedSignature then some []
        else none }
  zlib := ⟨true, fun data =>
    if data = officeCompressed then [(.streamEnd, buildTextConfig officePeers)]
    else [(.dataError, [])]⟩
  loadSucceeds := true
  save := .written
  cleanupSucceeds := true
  writeSucceeds _ := true

def officeConfig : Config :=
  { BackendArchive.sampleConfig with tincdVersion := some (ascii "1.0.36") }

/-- A line that stays as it is between two line feeds. -/
def isPlainLine (line : Bytes) : Bool :=
  line.head?.any (fun c => !isSpace c) && line.getLast?.any (fun c => !isSpace c) &&
    line.all fun c => c != 0 && c != lineFeed

theorem plainText_of_isPlainLine {line : Bytes} (h : isPlainLine line = true) :
    PlainText line ∧ line ≠ [] := by
  obtain ⟨hends, hplain⟩ := Bool.and_eq_true_iff.mp h
  obtain ⟨hfirst, hlast⟩ := Bool.and_eq_true_iff.mp hends
  obtain ⟨first, hhead, hfirst⟩ := (Option.any_eq_true ..).mp hfirst
  obtain ⟨last, hend, hlast⟩ := (Option.any_eq_true ..).mp hlast
  refine ⟨⟨trimmed_of_ends hhead hend
    ⟨by simpa using hfirst, by simpa using hlast⟩, ?_⟩, ?_⟩
  · simpa using hplain
  · rintro rfl
    cases hhead

def officeKeyBody : List Bytes :=
  ["MGgCYQDXcuyo1I8R", "99cgUu6k1ywmZNdI", "xAZulGcmKaB6u6Fj", "taDBXD9EjG0RPgQi",
   "SVSFmdbMPfmfP7BD", "3+lNCUonIMMBrOZV", "FeUSC01hWXIjxhvC", "18vrIApeMD7UG1Z9",
   "mL3ebSECAwEAAQ=="].map ascii

theorem officeKey_text : PublicKeyText BackendArchive.samplePubkey := by
  refine ⟨beginKey, officeKeyBody, endKey, by decide +kernel, List.prefix_refl _,
    List.prefix_refl _, fun line hline => plainText_of_isPlainLine ?_, fun line hline => ?_⟩
  · have hall : (beginKey :: (officeKeyBody ++ [endKey])).all isPlainLine = true := by
      decide
    exact List.all_eq_true.mp hall line hline
  · have hplain : officeKeyBody.all isPlainLine = true := by decide
    have hheads : ∀ line ∈ officeKeyBody, line.head? ≠ some 91 ∧ line.head? ≠ some CStrings.hash := by
      decide
    have hkeywords : ∀ line ∈ officeKeyBody, ∀ keyword ∈ itemKeywords ++ [beginKey, endKey],
        ¬ StartsWith keyword line := by decide
    have htext := (plainText_of_isPlainLine (List.all_eq_true.mp hplain line hline)).1
    exact ⟨⟨htext.trimmed, (hheads line hline).1, hkeywords line hline⟩, (hheads line hline).2⟩

theorem officeNetwork : Network plainLibrary officePeers where
  ids := by decide
  wellFormed q hq := by
    obtain rfl := List.mem_singleton.mp hq
    exact
      { id_nonempty := by decide
        id_bytes := by decide
        gatewayhost := (plainText_of_isPlainLine (by decide)).1
        port := ⟨655, by decide, by decide, rfl⟩
        networks := fun n hn => by
          obtain rfl := List.mem_singleton.mp hn
          exact ⟨(plainText_of_isPlainLine (by decide)).1, by decide⟩
        networks6 := fun n hn => absurd hn List.not_mem_nil
        pingtest := ⟨.nil, by decide⟩
        pingtest6 := ⟨.nil, by decide⟩
        ed25519PublicKey := ⟨.nil, by decide⟩
        pubkey := officeKey_text }

theorem officeServed : ServedTo officeConfig officeEnv officePeers officeRound := by
  have hprivkey : (stringGet officeConfig.privkey).getD [] = samplePrivkey := by decide +kernel
  have hcompressed : officeRound.compressedConfig = officeCompressed := by
    simp [PeerRound.compressedConfig, officeRound]
  have hsignature : officeRound.signature = officeSignature := by
    simp [PeerRound.signature, officeRound]
  have hrsa : officeRound.rsaEnc = encryptedKeys := by
    simp [PeerRound.rsaEnc, officeRound]
  have haes : AesDecodes officeEnv.ssl officeRound officeCompressed := by
    refine ⟨officeCompressed.take 304, officeCompressed.drop 304, ?_, ?_, List.take_append_drop ..⟩
    · decide +kernel
    · decide +kernel
  have haesSignature : AesDecodes officeEnv.ssl officeRound officeSignature := by
    refine ⟨officeSignature, [], ?_, ?_, List.append_nil _⟩
    · decide
    · decide
  have hinflate : Inflates officeEnv.zlib officeCompressed officeRound.config :=
    ⟨[], officeRound.config, by simp [officeEnv, officeRound], by simp, by decide +kernel, rfl⟩
  exact
    { config_eq := rfl
      own := ⟨_, List.mem_singleton.mpr rfl, rfl⟩
      aeskey := by decide
      aesiv := by decide
      fits := by
        simp only [PeerRound.files, PeerRound.addData, List.forall_mem_cons,
          hcompressed, hsignature, hrsa]
        decide +kernel
      signkey := rfl
      download := fun _ => rfl
      decodes := by
        rw [hprivkey]
        exact
          { pkeyCtxNew := rfl
            pkeyDecryptInit := by decide
            setRsaPadding := by decide
            rsa := ⟨officePkey, by simp [officeEnv], hrsa ▸ by decide, rfl,
              hrsa ▸ by decide⟩
            cipherCtxNew := rfl
            decryptInit := rfl
            aesConfig := hcompressed ▸ haes
            aesSignature := hsignature ▸ haesSignature
            inflateInit := rfl
            inflate := hcompressed ▸ hinflate
            mdCtxCreate := rfl
            verifyInit := rfl
            verify := ⟨officePkey, by simp [officeEnv, officeConfig, BackendArchive.sampleConfig],
              hsignature ▸ by simp [officePkey, officeRound]⟩ } }

end ChaosVpn.Delivery
