import ChaosVpn.ArArchive
import ChaosVpn.Crypto
import ChaosVpn.Settings
import ChaosVpn.HttpReceive

/-! main_request_config: one download of the peer text, with everything that can
reject it. The time of the request becomes the next If-Modified-Since time as soon
as the download is there. -/

namespace ChaosVpn.RequestConfig
open CStrings StringBuffer ArArchive Crypto Settings HttpReceive

/-- What http_get returned, and what it left in `httpres` and in the archive. -/
structure HttpResult where
  retval : Nat
  httpres : Int
  archive : Bytes

structure RequestEnv where
  startfetchtime : Int
  httpGet : Int → HttpResult
  ssl : OpenSsl
  zlib : Zlib

/-- A call of crypto_rsa_verify_signature. -/
structure VerifyCall where
  databuffer : Bytes
  signature : Bytes
  pubkey : Bytes
  result : Bool
  deriving DecidableEq

structure Opened where
  retval : Int
  httpResponse : StructString
  verify : Option VerifyCall

structure RequestResult where
  retval : Int
  httpResponse : StructString
  ifmodifiedsince : Int
  verify : Option VerifyCall

def arMember (archive membername : Bytes) : Option Bytes :=
  let (found, result) := arExtract archive membername
  if found then some (content result) else none

/-- Key and initialisation vector from the decrypted rsa block, each behind the two
bytes that give their lengths. -/
def aesParameters (env : RequestEnv) (privkey archive : Bytes) : Option (Bytes × Bytes) :=
  (arMember archive (ascii "rsa")).bind fun encrypted =>
    (cryptoRsaDecrypt env.ssl encrypted privkey).bind fun buf =>
      if buf.length < 2 then none
      else if buf[0]? ≠ some 32 then none
      else if buf[1]? ≠ some 16 then none
      else if buf.length < 32 + 16 + 2 then none
      else some ((buf.drop 2).take 32, (buf.drop 34).take 16)

def decryptMember (env : RequestEnv) (archive membername : Bytes) (aes : Bytes × Bytes) :
    Option Bytes :=
  (arMember archive membername).bind fun encrypted => cryptoAesDecrypt env.ssl encrypted aes.1 aes.2

/-- The text is decompressed into the response before its signature is looked at. -/
def openEncrypted (env : RequestEnv) (privkey signkey archive : Bytes)
    (httpResponse : StructString) : Opened :=
  match aesParameters env privkey archive with
  | none => ⟨-1, httpResponse, none⟩
  | some aes =>
    match decryptMember env archive (ascii "encrypted") aes with
    | none => ⟨-1, httpResponse, none⟩
    | some compressed =>
      match uncompressInflate env.zlib compressed (content httpResponse) with
      | (false, text) => ⟨-1, ⟨some text⟩, none⟩
      | (true, text) =>
        match decryptMember env archive (ascii "signature") aes with
        | none => ⟨-1, ⟨some text⟩, none⟩
        | some signature =>
          let verified := cryptoRsaVerifySignature env.ssl text signature signkey
          ⟨if verified then 1 else -1, ⟨some text⟩, some ⟨text, signature, signkey, verified⟩⟩

/-- Everything behind the download. Without a key to verify with, the text may come
as it is or as the cleartext member of the archive. -/
def openArchive (config : Config) (env : RequestEnv) (archive : Bytes)
    (httpResponse : StructString) : Opened :=
  if !arIsArFile archive then
    if strIsEmpty config.masterdataSignkey then ⟨1, ⟨some archive⟩, none⟩
    else ⟨-1, httpResponse, none⟩
  else if (arMember archive (ascii "chaosvpn-version")).map cstr ≠ some (ascii "3") then
    ⟨-1, httpResponse, none⟩
  else if strIsEmpty config.masterdataSignkey then
    let (found, cleartext) := arExtract archive (ascii "cleartext")
    ⟨if found then 1 else -1, cleartext, none⟩
  else
    openEncrypted env ((stringGet config.privkey).getD []) (config.masterdataSignkey.getD [])
      archive httpResponse

/-- `none` is the exit on an URL that is not a http one. -/
def mainRequestConfig (config : Config) (env : RequestEnv) (ifmodifiedsince : Int)
    (httpResponse : StructString) : Option RequestResult :=
  let http := env.httpGet ifmodifiedsince
  if http.retval ≠ httpEok then
    if http.retval = httpEsrverr then
      some ⟨if http.httpres = 304 then 0 else -1, stringEnsurez httpResponse, ifmodifiedsince, none⟩
    else if http.retval = httpEinvurl then none
    else some ⟨-1, stringEnsurez httpResponse, ifmodifiedsince, none⟩
  else
    let opened := openArchive config env http.archive httpResponse
    some ⟨opened.retval, stringEnsurez opened.httpResponse, env.startfetchtime, opened.verify⟩

/-! What the checks amount to -/

/-- The decrypted and decompressed text carries a signature that the key confirms. -/
def SignedText (env : RequestEnv) (privkey signkey archive : Bytes)
    (httpResponse : StructString) (text signature : Bytes) : Prop :=
  ∃ aes compressed, aesParameters env privkey archive = some aes ∧
    decryptMember env archive (ascii "encrypted") aes = some compressed ∧
    uncompressInflate env.zlib compressed (content httpResponse) = (true, text) ∧
    decryptMember env archive (ascii "signature") aes = some signature ∧
    cryptoRsaVerifySignature env.ssl text signature signkey = true

/-- A download that passes all checks. -/
def Accepted (config : Config) (env : RequestEnv) (archive : Bytes)
    (httpResponse : StructString) : Prop :=
  if arIsArFile archive then
    (arMember archive (ascii "chaosvpn-version")).map cstr = some (ascii "3") ∧
      if strIsEmpty config.masterdataSignkey then (arMember archive (ascii "cleartext")).isSome = true
      else ∃ text signature, SignedText env ((stringGet config.privkey).getD [])
        (config.masterdataSignkey.getD []) archive httpResponse text signature
  else strIsEmpty config.masterdataSignkey = true

variable {config : Config} {env : RequestEnv} {httpResponse : StructString}

theorem arMember_isSome (archive membername : Bytes) :
    (arMember archive membername).isSome = (arExtract archive membername).1 := by
  unfold arMember
  cases h : (arExtract archive membername).1 <;> simp [h]

theorem openEncrypted_spec (env : RequestEnv) (privkey signkey archive : Bytes)
    (httpResponse : StructString) :
    ((openEncrypted env privkey signkey archive httpResponse).retval = -1 ∧
        ¬ ∃ text signature, SignedText env privkey signkey archive httpResponse text signature) ∨
      ∃ text signature, SignedText env privkey signkey archive httpResponse text signature ∧
        openEncrypted env privkey signkey archive httpResponse =
          ⟨1, ⟨some text⟩, some ⟨text, signature, signkey, true⟩⟩ := by
  unfold openEncrypted SignedText
  cases haes : aesParameters env privkey archive with
  | none => simp
  | some aes =>
    cases hencrypted : decryptMember env archive (ascii "encrypted") aes with
    | none => simp [hencrypted]
    | some compressed =>
      rcases hinflate : uncompressInflate env.zlib compressed (content httpResponse) with ⟨_ | _, text⟩
      · simp [hencrypted, hinflate]
      · cases hsignature : decryptMember env archive (ascii "signature") aes with
        | none => simp [hencrypted, hinflate, hsignature]
        | some signature =>
          cases hverify : cryptoRsaVerifySignature env.ssl text signature signkey <;>
            simp [hencrypted, hinflate, hsignature, hverify]

theorem openArchive_retval (config : Config) (env : RequestEnv) (archive : Bytes)
    (httpResponse : StructString) :
    ((openArchive config env archive httpResponse).retval = 1 ∧
        Accepted config env archive httpResponse) ∨
      ((openArchive config env archive httpResponse).retval = -1 ∧
        ¬ Accepted config env archive httpResponse) := by
  unfold openArchive Accepted
  cases har : arIsArFile archive with
  | false => cases hkey : strIsEmpty config.masterdataSignkey <;> simp
  | true =>
    by_cases hversion : (arMember archive (ascii "chaosvpn-version")).map cstr = some (ascii "3")
    · cases hkey : strIsEmpty config.masterdataSignkey with
      | true =>
        have hmember := arMember_isSome archive (ascii "cleartext")
        cases hfound : (arExtract archive (ascii "cleartext")).1 <;>
          simp [hversion, hmember, hfound]
      | false =>
        have hspec := openEncrypted_spec env ((stringGet config.privkey).getD [])
          (config.masterdataSignkey.getD []) archive httpResponse
        simp only [Bool.not_true, Bool.false_eq_true, if_false, if_true, hversion, ne_eq,
          not_true_eq_false, true_and]
        rcases hspec with ⟨hretval, hnone⟩ | ⟨text, signature, hsigned, hopened⟩
        · exact .inr ⟨hretval, hnone⟩
        · exact .inl ⟨by rw [hopened], text, signature, hsigned⟩
    · simp [hversion]

/-- The call of crypto_rsa_verify_signature that confirmed a text. -/
def Confirms (ssl : OpenSsl) (signkey : Option Bytes) (call : Option VerifyCall) (text : Bytes) :
    Prop :=
  ∃ signature, call = some ⟨text, signature, signkey.getD [], true⟩ ∧
    cryptoRsaVerifySignature ssl text signature (signkey.getD []) = true

/-- With a key to verify with, an accepted response is one that was verified. -/
theorem openArchive_verified {archive : Bytes} (hkey : strIsEmpty config.masterdataSignkey = false)
    (h : (openArchive config env archive httpResponse).retval = 1) :
    Confirms env.ssl config.masterdataSignkey (openArchive config env archive httpResponse).verify
      (content (openArchive config env archive httpResponse).httpResponse) := by
  revert h
  unfold openArchive Confirms
  rw [hkey]
  split
  · simp
  · split
    · simp
    · rcases openEncrypted_spec env ((stringGet config.privkey).getD [])
        (config.masterdataSignkey.getD []) archive httpResponse with
        ⟨hretval, -⟩ | ⟨text, signature, ⟨_, _, -, -, -, -, hverified⟩, hopened⟩
      · simp [hretval]
      · exact fun _ =>
          ⟨signature, by simp [hopened, content], by simpa [hopened, content] using hverified⟩

theorem mainRequestConfig_verified {ifmodifiedsince : Int} {request : RequestResult}
    (hkey : strIsEmpty config.masterdataSignkey = false)
    (h : mainRequestConfig config env ifmodifiedsince httpResponse = some request)
    (hretval : ¬ request.retval < 1) :
    Confirms env.ssl config.masterdataSignkey request.verify (content request.httpResponse) := by
  unfold mainRequestConfig at h
  dsimp only at h
  split at h
  · split at h
    · obtain rfl := Option.some.inj h
      exact absurd hretval (by dsimp only; split <;> simp)
    · split at h
      · cases h
      · obtain rfl := Option.some.inj h
        exact absurd hretval (by simp)
  · obtain rfl := Option.some.inj h
    dsimp only at hretval ⊢
    rw [content_stringEnsurez]
    rcases openArchive_retval config env (env.httpGet ifmodifiedsince).archive httpResponse with
      ⟨hone, -⟩ | ⟨hminus, -⟩
    · exact openArchive_verified hkey hone
    · exact absurd hretval (by rw [hminus]; decide)

end ChaosVpn.RequestConfig
