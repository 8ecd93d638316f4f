import ChaosVpn.StringBuffer

/-! crypto.c and uncompress.c over whatever openssl and zlib do: every call of
theirs that decides something is a field of the environment. -/

namespace ChaosVpn.Crypto
open CStrings

/-- A loaded key: EVP_PKEY_size, the two uses of EVP_PKEY_decrypt (the length query
and the decryption) and EVP_VerifyFinal over a SHA512 digest. -/
structure EvpPkey where
  size : Nat
  decryptLength : Bytes → Nat
  decrypt : Bytes → Option Bytes
  verifyFinal : Bytes → Bytes → Int

structure OpenSsl where
  pemReadPrivateKey : Bytes → Option EvpPkey
  pemReadPubkey : Bytes → Option EvpPkey
  mdCtxCreate : Bool
  verifyInit : Int
  pkeyCtxNew : Bool
  pkeyDecryptInit : Int
  setRsaPadding : Int
  cipherCtxNew : Bool
  decryptInit : Bytes → Bytes → Bool
  decryptUpdate : Bytes → Bytes → Bytes → Option Bytes
  decryptFinal : Bytes → Bytes → Bytes → Option Bytes

def cryptoLoadKey (ssl : OpenSsl) (key : Bytes) (isPrivate : Bool) : Option EvpPkey :=
  if isPrivate then ssl.pemReadPrivateKey key else ssl.pemReadPubkey key

def cryptoRsaVerifySignature (ssl : OpenSsl) (databuffer signature pubkey : Bytes) : Bool :=
  match cryptoLoadKey ssl pubkey false with
  | none => false
  | some pkey =>
    ssl.mdCtxCreate && ssl.verifyInit = 1 && pkey.verifyFinal databuffer signature = 1

def cryptoRsaDecrypt (ssl : OpenSsl) (ciphertext privkey : Bytes) : Option Bytes :=
  (cryptoLoadKey ssl privkey true).bind fun pkey =>
    if ciphertext.length ≠ pkey.size then none
    else if !ssl.pkeyCtxNew then none
    else if ssl.pkeyDecryptInit ≤ 0 then none
    else if ssl.setRsaPadding ≤ 0 then none
    else if pkey.decryptLength ciphertext ≠ ciphertext.length then none
    else pkey.decrypt ciphertext

def aesKeyLength : Nat := 32
def aesIvLength : Nat := 16

def cryptoAesDecrypt (ssl : OpenSsl) (ciphertext aesKey aesIv : Bytes) : Option Bytes :=
  if !ssl.cipherCtxNew then none
  else if !ssl.decryptInit aesKey aesIv then none
  else if aesKey.length ≠ aesKeyLength then none
  else if aesIv.length ≠ aesIvLength then none
  else
    (ssl.decryptUpdate aesKey aesIv ciphertext).bind fun decrypted =>
      (ssl.decryptFinal aesKey aesIv ciphertext).map (decrypted ++ ·)

/-! uncompress_inflate -/

inductive InflateStatus
  | ok
  | streamEnd
  | needDict
  | dataError
  | memError
  | streamError
  | bufError
  deriving DecidableEq

/-- inflateInit(), and for some compressed bytes what the calls of inflate() return
and put into the output buffer. -/
structure Zlib where
  inflateInit : Bool
  inflate : Bytes → List (InflateStatus × Bytes)

def outbufSize : Nat := 1024

/-- The loop goes on as long as a call fills the output buffer. What was put out
stays in `uncompressed`, also when a later call fails. -/
def inflateAll : List (InflateStatus × Bytes) → Bytes → Bool × Bytes
  | [], uncompressed => (false, uncompressed)
  | (retval, outbuf) :: calls, uncompressed =>
    if retval ∈ [.streamError, .needDict, .dataError, .memError] then (false, uncompressed)
    else if outbuf.length = outbufSize then inflateAll calls (uncompressed ++ outbuf)
    else (retval = .streamEnd, uncompressed ++ outbuf)

def uncompressInflate (zlib : Zlib) (compressed uncompressed : Bytes) : Bool × Bytes :=
  if zlib.inflateInit then inflateAll (zlib.inflate compressed) uncompressed
  else (false, uncompressed)

end ChaosVpn.Crypto
