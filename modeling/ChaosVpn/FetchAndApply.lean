import ChaosVpn.RequestConfig
import ChaosVpn.PeerParser
import ChaosVpn.Library.Runs

/-! main_fetch_and_apply_config as one step of the client. The peers of the list
have the addresses they were allocated at, `myPeer` is such an address and is
never taken back. The server, the libraries and the files answer through the
environment of the call. -/

namespace ChaosVpn.FetchAndApply
open CStrings StringBuffer Libc Settings PeerParser RequestConfig

inductive WriteStep
  | config
  | hosts
  | up
  | down
  | subnetUp
  | subnetDown
  deriving DecidableEq

/-- tinc_write_config, tinc_write_hosts, tinc_write_updown and tinc_write_subnetupdown. -/
def writeSteps : List WriteStep := [.config, .hosts, .up, .down, .subnetUp, .subnetDown]

/-- Writing `tmpconffile`; after a failure unlink() may leave something of it. -/
inductive SaveOutcome
  | written
  | failed (left : Option Bytes)

structure Env extends RequestEnv where
  loadSucceeds : Bool
  save : SaveOutcome
  cleanupSucceeds : Bool
  writeSucceeds : WriteStep → Bool

structure Client where
  peerConfig : List (PeerConfig × Nat)
  myPeer : Option Nat
  nextAddress : Nat
  ifmodifiedsince : Int
  oldconfig : StructString
  tmpconf : Option Bytes

/-- The client as main starts it, with what `tmpconffile` then holds. -/
def startClient (tmpconf : Option Bytes) : Client where
  peerConfig := []
  myPeer := none
  nextAddress := 0
  ifmodifiedsince := 0
  oldconfig := stringInit
  tmpconf := tmpconf

/-- What a call did: its result and that of its request, the text that was compared,
list and own peer when main_parse_config returned, and the write steps made. -/
structure Report where
  retval : Int
  requested : Int
  verify : Option VerifyCall
  text : Option Bytes
  parsed : Option (Bool × Client)
  writes : Option (List (WriteStep × Bool))

def mainLoadPreviousConfig (config : Config) (env : Env) (tmpconf : Option Bytes) :
    Option StructString :=
  if strIsEmpty config.tmpconffile || !env.loadSucceeds then none
  else tmpconf.map fun file => ⟨some file⟩

/-- The downloaded text, or else the stored one. -/
def fetchedText (config : Config) (env : Env) (request : RequestResult) (tmpconf : Option Bytes) :
    Option StructString :=
  if request.retval < 1 then mainLoadPreviousConfig config env tmpconf
  else some request.httpResponse

def requested (client : Client) (request : RequestResult) : Client :=
  { client with ifmodifiedsince := request.ifmodifiedsince }

/-- The loop that looks for the own name; a later peer replaces an earlier one. -/
def findOwnPeer (config : Config) : List (PeerConfig × Nat) → Option Nat → Option Nat
  | [], myPeer => myPeer
  | i :: list, myPeer =>
    findOwnPeer config list (if i.1.name = config.peerid then some i.2 else myPeer)

def parsedPeers (libc : CLibrary) (client : Client) (text : Bytes) : List (PeerConfig × Nat) :=
  (parserParseConfig libc text).zipIdx client.nextAddress

/-- The parsed peers go to the end of the list, whatever is in it. -/
def mainParseConfig (libc : CLibrary) (config : Config) (client : Client) (text : StructString) :
    Client :=
  let new := parsedPeers libc client (content text)
  { client with
    peerConfig := client.peerConfig ++ new
    nextAddress := client.nextAddress + new.length
    myPeer := findOwnPeer config (client.peerConfig ++ new) client.myPeer }

def mainTempsaveFetchedConfig (config : Config) (env : Env) (client : Client)
    (cnf : StructString) : Client :=
  if strIsEmpty config.tmpconffile then client
  else
    match env.save with
    | .written => { client with tmpconf := some (content cnf) }
    | .failed left => { client with tmpconf := left }

/-- The accepted text is stored and becomes the one that later texts are compared with. -/
def accepted (config : Config) (env : Env) (client : Client) (text : StructString) : Client :=
  { mainTempsaveFetchedConfig config env client text with oldconfig := text }

/-- The write steps up to the first that fails. -/
def runWrites (succeeds : WriteStep → Bool) : List WriteStep → List (WriteStep × Bool)
  | [] => []
  | step :: steps =>
    if succeeds step then (step, true) :: runWrites succeeds steps else [(step, false)]

def mainFreeParsedInfo (client : Client) : Client := { client with peerConfig := [] }

/-- `none` is the exit in main_request_config. -/
def mainFetchAndApplyConfig (libc : CLibrary) (config : Config) (client : Client) (env : Env) :
    Option (Report × Client) :=
  (mainRequestConfig config env.toRequestEnv client.ifmodifiedsince stringInit).map fun request =>
    let client := requested client request
    match fetchedText config env request client.tmpconf with
    | none => (⟨-1, request.retval, request.verify, none, none, none⟩, client)
    | some text =>
      if stringEquals text client.oldconfig then
        (⟨0, request.retval, request.verify, some (content text), none, none⟩, client)
      else
        let client := mainParseConfig libc config client text
        let found := client.myPeer.isSome
        let report := Report.mk (-1) request.retval request.verify (some (content text))
          (some (found, client))
        if !found then (report none, client)
        else
          let client := accepted config env client text
          if !env.cleanupSucceeds then (report none, client)
          else
            let writes := runWrites env.writeSucceeds writeSteps
            if writes.all (·.2) then
              ({ report (some writes) with retval := 1 }, mainFreeParsedInfo client)
            else (report (some writes), client)

/-! What a call can do -/

def CompletesWrites (env : Env) : Prop :=
  env.cleanupSucceeds = true ∧ ∀ step ∈ writeSteps, env.writeSucceeds step = true

instance (env : Env) : Decidable (CompletesWrites env) := inferInstanceAs (Decidable (_ ∧ _))

theorem runWrites_all (succeeds : WriteStep → Bool) (steps : List WriteStep) :
    (runWrites succeeds steps).all (·.2) = true ↔ ∀ step ∈ steps, succeeds step = true := by
  induction steps with
  | nil => simp [runWrites]
  | cons step steps ih => by_cases h : succeeds step = true <;> simp [runWrites, h, ih]

theorem runWrites_complete {succeeds : WriteStep → Bool} {steps : List WriteStep}
    (h : ∀ step ∈ steps, succeeds step = true) :
    runWrites succeeds steps = steps.map (·, true) := by
  induction steps with
  | nil => rfl
  | cons step steps ih =>
    simp [runWrites, h step (by simp), ih fun s hs => h s (by simp [hs])]

/-- The ways through main_fetch_and_apply_config, each with the state it leaves. -/
inductive Outcome (libc : CLibrary) (config : Config) (client : Client) (env : Env)
    (request : RequestResult) : Report → Client → Prop
  | noText (htext : fetchedText config env request client.tmpconf = none) :
      Outcome libc config client env request
        ⟨-1, request.retval, request.verify, none, none, none⟩ (requested client request)
  | unchanged (text : StructString)
      (htext : fetchedText config env request client.tmpconf = some text)
      (hequal : stringEquals text client.oldconfig = true) :
      Outcome libc config client env request
        ⟨0, request.retval, request.verify, some (content text), none, none⟩
        (requested client request)
  | refused (text : StructString) (parsed : Client)
      (htext : fetchedText config env request client.tmpconf = some text)
      (hequal : stringEquals text client.oldconfig = false)
      (hparsed : parsed = mainParseConfig libc config (requested client request) text)
      (hpeer : parsed.myPeer = none) :
      Outcome libc config client env request
        ⟨-1, request.retval, request.verify, some (content text), some (false, parsed), none⟩ parsed
  | interrupted (text : StructString) (parsed : Client) (writes : Option (List (WriteStep × Bool)))
      (htext : fetchedText config env request client.tmpconf = some text)
      (hequal : stringEquals text client.oldconfig = false)
      (hparsed : parsed = mainParseConfig libc config (requested client request) text)
      (hpeer : parsed.myPeer.isSome = true) (hfail : ¬ CompletesWrites env)
      (hwrites : writes =
        if env.cleanupSucceeds then some (runWrites env.writeSucceeds writeSteps) else none) :
      Outcome libc config client env request
        ⟨-1, request.retval, request.verify, some (content text), some (true, parsed), writes⟩
        (accepted config env parsed text)
  | applied (text : StructString) (parsed : Client)
      (htext : fetchedText config env request client.tmpconf = some text)
      (hequal : stringEquals text client.oldconfig = false)
      (hparsed : parsed = mainParseConfig libc config (requested client request) text)
      (hpeer : parsed.myPeer.isSome = true) (hcomplete : CompletesWrites env) :
      Outcome libc config client env request
        ⟨1, request.retval, request.verify, some (content text), some (true, parsed),
          some (writeSteps.map (·, true))⟩
        (mainFreeParsedInfo (accepted config env parsed text))

variable {libc : CLibrary} {config : Config} {client post : Client} {env : Env} {report : Report}

theorem mainFetchAndApplyConfig_cases
    (h : mainFetchAndApplyConfig libc config client env = some (report, post)) :
    ∃ request, mainRequestConfig config env.toRequestEnv client.ifmodifiedsince stringInit =
        some request ∧ Outcome libc config client env request report post := by
  obtain ⟨request, hrequest, hstep⟩ := Option.map_eq_some_iff.mp h
  refine ⟨request, hrequest, ?_⟩
  dsimp only at hstep
  split at hstep
  · rename_i htext
    obtain ⟨rfl, rfl⟩ := Prod.mk.inj hstep
    exact .noText htext
  · rename_i text htext
    split at hstep
    · rename_i hequal
      obtain ⟨rfl, rfl⟩ := Prod.mk.inj hstep
      exact .unchanged text htext hequal
    · rename_i hequal
      have hequal := Bool.eq_false_iff.mpr hequal
      cases hpeer : (mainParseConfig libc config (requested client request) text).myPeer.isSome with
      | false =>
        rw [hpeer] at hstep
        obtain ⟨rfl, rfl⟩ := Prod.mk.inj hstep
        have hnone := Option.isNone_iff_eq_none.mp (Option.isSome_eq_false_iff.mp hpeer)
        exact .refused text _ htext hequal rfl hnone
      | true =>
        rw [hpeer] at hstep
        have hcomplete : CompletesWrites env ↔ env.cleanupSucceeds = true ∧
            (runWrites env.writeSucceeds writeSteps).all (·.2) = true :=
          and_congr_right fun _ => (runWrites_all _ _).symm
        cases hcleanup : env.cleanupSucceeds with
        | false =>
          rw [hcleanup] at hstep
          obtain ⟨rfl, rfl⟩ := Prod.mk.inj hstep
          exact .interrupted text _ none htext hequal rfl hpeer
            (by simp [hcomplete, hcleanup]) (by simp [hcleanup])
        | true =>
          rw [hcleanup] at hstep
          cases hall : (runWrites env.writeSucceeds writeSteps).all (·.2) with
          | false =>
            rw [hall] at hstep
            obtain ⟨rfl, rfl⟩ := Prod.mk.inj hstep
            exact .interrupted text _ _ htext hequal rfl hpeer
              (by simp [hcomplete, hall]) (by simp [hcleanup])
          | true =>
            rw [hall] at hstep
            have hdone := hcomplete.mpr ⟨hcleanup, hall⟩
            rw [runWrites_complete hdone.2] at hstep
            obtain ⟨rfl, rfl⟩ := Prod.mk.inj hstep
            exact .applied text _ htext hequal rfl hpeer hdone

/-! The own peer -/

theorem findOwnPeer_isSome (list : List (PeerConfig × Nat)) (myPeer : Option Nat) :
    (findOwnPeer config list myPeer).isSome = true ↔
      myPeer.isSome = true ∨ ∃ i ∈ list, i.1.name = config.peerid := by
  induction list generalizing myPeer with
  | nil => simp [findOwnPeer]
  | cons i list ih =>
    rw [findOwnPeer, ih]
    by_cases hi : i.1.name = config.peerid <;> simp [hi]

theorem findOwnPeer_append (front list : List (PeerConfig × Nat)) (myPeer : Option Nat) :
    findOwnPeer config (front ++ list) myPeer =
      findOwnPeer config list (findOwnPeer config front myPeer) := by
  induction front generalizing myPeer with
  | nil => rfl
  | cons i front ih => exact ih _

theorem findOwnPeer_of_none {list : List (PeerConfig × Nat)} (myPeer : Option Nat)
    (h : ∀ i ∈ list, i.1.name ≠ config.peerid) : findOwnPeer config list myPeer = myPeer := by
  induction list with
  | nil => rfl
  | cons i list ih =>
    rw [findOwnPeer, if_neg (h i (by simp))]
    exact ih fun j hj => h j (by simp [hj])

theorem findOwnPeer_mem {list : List (PeerConfig × Nat)} (myPeer : Option Nat)
    (h : ∃ i ∈ list, i.1.name = config.peerid) :
    ∃ i ∈ list, i.1.name = config.peerid ∧ findOwnPeer config list myPeer = some i.2 := by
  induction list generalizing myPeer with
  | nil => simp at h
  | cons i list ih =>
    rw [findOwnPeer]
    by_cases hrest : ∃ j ∈ list, j.1.name = config.peerid
    · obtain ⟨j, hj, hname, hfound⟩ := ih _ hrest
      exact ⟨j, by simp [hj], hname, hfound⟩
    · have hnone : ∀ j ∈ list, j.1.name ≠ config.peerid := fun j hj hname => hrest ⟨j, hj, hname⟩
      have hi : i.1.name = config.peerid := by
        obtain ⟨j, hj, hname⟩ := h
        rcases List.mem_cons.mp hj with rfl | hj
        · exact hname
        · exact absurd hname (hnone j hj)
      exact ⟨i, by simp, hi, by rw [if_pos hi, findOwnPeer_of_none _ hnone]⟩

theorem parsedPeers_fst (client : Client) (text : Bytes) :
    (parsedPeers libc client text).map Prod.fst = parserParseConfig libc text :=
  List.zipIdx_map_fst _ _

theorem exists_own_parsedPeers (client : Client) (text : Bytes) :
    (∃ i ∈ parsedPeers libc client text, i.1.name = config.peerid) ↔
      config.peerid ∈ sectionNames text := by
  have hsections : config.peerid ∈ sectionNames text ↔
      ∃ p ∈ parserParseConfig libc text, p.name = config.peerid := mem_sectionNames_iff
  rw [hsections, ← parsedPeers_fst client text]
  simp

/-! What the parts of a call leave alone -/

@[simp] theorem accepted_peerConfig (client : Client) (text : StructString) :
    (accepted config env client text).peerConfig = client.peerConfig := by
  unfold accepted mainTempsaveFetchedConfig
  split
  · rfl
  · split <;> rfl

@[simp] theorem accepted_myPeer (client : Client) (text : StructString) :
    (accepted config env client text).myPeer = client.myPeer := by
  unfold accepted mainTempsaveFetchedConfig
  split
  · rfl
  · split <;> rfl

@[simp] theorem accepted_oldconfig (client : Client) (text : StructString) :
    (accepted config env client text).oldconfig = text := rfl

@[simp] theorem accepted_ifmodifiedsince (client : Client) (text : StructString) :
    (accepted config env client text).ifmodifiedsince = client.ifmodifiedsince := by
  unfold accepted mainTempsaveFetchedConfig
  split
  · rfl
  · split <;> rfl

/-- Every call leaves the If-Modified-Since time that its request left. -/
theorem Outcome.ifmodifiedsince {request : RequestResult}
    (h : Outcome libc config client env request report post) :
    post.ifmodifiedsince = request.ifmodifiedsince := by
  cases h <;> simp_all [requested, mainParseConfig, mainFreeParsedInfo]

theorem Outcome.verify_eq {request : RequestResult}
    (h : Outcome libc config client env request report post) : report.verify = request.verify := by
  cases h <;> rfl

theorem Outcome.requested_eq {request : RequestResult}
    (h : Outcome libc config client env request report post) :
    report.requested = request.retval := by
  cases h <;> rfl

/-! The text of a call -/

/-- The text that a call compares, if it gets one. -/
def obtainedText (config : Config) (client : Client) (env : Env) : Option Bytes :=
  (mainRequestConfig config env.toRequestEnv client.ifmodifiedsince stringInit).bind fun request =>
    (fetchedText config env request client.tmpconf).map content

theorem Outcome.text_eq {request : RequestResult}
    (h : Outcome libc config client env request report post) :
    report.text = (fetchedText config env request client.tmpconf).map content := by
  cases h <;> simp_all

theorem mainRequestConfig_allocated {renv : RequestEnv} {ims : Int} {response : StructString}
    {request : RequestResult} (h : mainRequestConfig config renv ims response = some request) :
    request.httpResponse.s.isSome = true := by
  unfold mainRequestConfig at h
  dsimp only at h
  split at h
  · split at h
    · obtain rfl := Option.some.inj h
      rfl
    · split at h
      · cases h
      · obtain rfl := Option.some.inj h
        rfl
  · obtain rfl := Option.some.inj h
    rfl

theorem fetchedText_allocated {request : RequestResult} {tmpconf : Option Bytes}
    {text : StructString} (hresponse : request.httpResponse.s.isSome = true)
    (h : fetchedText config env request tmpconf = some text) : text.s.isSome = true := by
  unfold fetchedText mainLoadPreviousConfig at h
  split at h
  · split at h
    · cases h
    · obtain ⟨file, -, rfl⟩ := Option.map_eq_some_iff.mp h
      rfl
  · exact Option.some.inj h ▸ hresponse

abbrev Call := Runs.Call Client Env Report

abbrev Run (libc : CLibrary) (config : Config) (start : Client) : List Call → Client → Prop :=
  Runs.Run (mainFetchAndApplyConfig libc config) start

/-! Calls of a client without a key, whose server sends the text as it is -/

def noSsl : Crypto.OpenSsl where
  pemReadPrivateKey _ := none
  pemReadPubkey _ := none
  mdCtxCreate := false
  verifyInit := 0
  pkeyCtxNew := false
  pkeyDecryptInit := 0
  setRsaPadding := 0
  cipherCtxNew := false
  decryptInit _ _ := false
  decryptUpdate _ _ _ := none
  decryptFinal _ _ _ := none

def rawEnv (text : Bytes) (succeeds : WriteStep → Bool) : Env where
  startfetchtime := 1000
  httpGet _ := ⟨HttpReceive.httpEok, 200, text⟩
  ssl := noSsl
  zlib := ⟨false, fun _ => []⟩
  loadSucceeds := true
  save := .written
  cleanupSucceeds := true
  writeSucceeds := succeeds

def rawConfig : Config where
  peerid := ascii "a"
  networkname := ascii "chaos"
  basePath := ascii "/etc/tinc/chaos"

end ChaosVpn.FetchAndApply
