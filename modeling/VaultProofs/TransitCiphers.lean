import Mathlib
import VaultProofs.GoDecimals
import VaultProofs.KeyOperations

/-!
Encryption and decryption with the symmetric keys of the transit engine. The primitives of the
standard library are parameters with their documented laws; the choice of the keys, of the nonce and
of the format of the ciphertext is the engine's.
-/

namespace VaultProofs.TransitCiphers

open GoStrings GoDecimals TransitKeys KeyOperations
open VaultEffects (GoError)

def nonceSize : Nat := 12

/-- An authenticated cipher under any key. `sealed` is `Seal` and `opened` is `Open`, which accepts
what `Seal` made with the same nonce and additional data, and no nonce of another size. -/
structure Aead where
  overhead : Nat
  sealed : (key nonce plaintext additionalData : GoString) → GoString
  opened : (key nonce ciphertext additionalData : GoString) → Option GoString
  length_sealed : ∀ key nonce plaintext additionalData,
    (sealed key nonce plaintext additionalData).length = plaintext.length + overhead
  opened_iff : ∀ key nonce ciphertext additionalData plaintext, nonce.length = nonceSize →
    (opened key nonce ciphertext additionalData = some plaintext ↔
      ciphertext = sealed key nonce plaintext additionalData)
  opened_size : ∀ key nonce ciphertext additionalData, nonce.length ≠ nonceSize →
    opened key nonce ciphertext additionalData = none

inductive CipherError where
  | user (text : String) (cause : Option GoError)
  | internal (text : String) (cause : Option GoError)
  | key (fault : KeyFault)
  | unsupported (text : String)

def userError (text : String) : CipherError := .user text none

def internalError (text : String) : CipherError := .internal text none

inductive Factory where
  | none
  | aead
  | associatedData (data : Except GoError GoString)
  | managedKey
  | unknown (goType : String)

structure EncryptionOptions where
  keyVersion : Int := 0
  context : GoString := []
  nonce : GoString := []

/-- The primitives, and what key types other than the three symmetric ones do. HKDF is a stream of
bytes for a key and a context, without a salt. -/
structure CipherSuite where
  gcm : Aead
  chaCha : Aead
  encodeBase64 : GoString → GoString
  decodeBase64 : GoString → Except GoError GoString
  decode_encode : ∀ bytes, decodeBase64 (encodeBase64 bytes) = .ok bytes
  hmacSHA256 : (key data : GoString) → GoString
  length_hmacSHA256 : ∀ key data, (hmacSHA256 key data).length = 32
  hkdfSHA256 : (key context : GoString) → Nat → UInt8
  ed25519Key : (seed : GoString) → GoString
  encryptOther : Policy → EncryptionOptions → List Factory → GoString → Except CipherError GoString
  decryptOther : Policy → EncryptionOptions → List Factory → GoString → Except CipherError GoString

/-- Big-endian. -/
def putUint32 (n : Nat) : GoString :=
  [n / 2 ^ 24, n / 2 ^ 16, n / 2 ^ 8, n].map UInt8.ofNat

def counterRounds (prf : GoString → GoString → GoString) (prfLen : Nat) (key context : GoString)
    (bits : Nat) : List Nat → GoString → Except CipherError GoString
  | [], out => .ok out
  | i :: rest, out =>
    let part := prf key (putUint32 i ++ context ++ putUint32 bits)
    let size := 8 * part.length
    if size ≠ prfLen then .error (.unsupported s!"PRF length mis-match ({size} vs {prfLen})")
    else counterRounds prf prfLen key context bits rest (out ++ part)

def counterMode (prf : GoString → GoString → GoString) (prfLen : Nat) (key context : GoString)
    (bits : Nat) : Except CipherError GoString :=
  if prfLen % 8 ≠ 0 then .error (.unsupported "PRF must be byte aligned")
  else if bits % 8 ≠ 0 then .error (.unsupported "bits required must be byte aligned")
  else
    let rounds := bits / prfLen + if bits % prfLen ≠ 0 then 1 else 0
    (counterRounds prf prfLen key context bits (List.range rounds) []).map fun out =>
      out.take (bits / 8)

def isAead : KeyType → Bool
  | .aes128GCM96 | .aes256GCM96 | .chaCha20Poly1305 => true
  | _ => false

def encryptionSupported : KeyType → Bool
  | .aes128GCM96 | .aes256GCM96 | .chaCha20Poly1305 | .rsa2048 | .rsa3072 | .rsa4096
  | .managedKey | .aes128CBC | .aes256CBC => true
  | _ => false

def decryptionSupported : KeyType → Bool := encryptionSupported

def derivationSupported : KeyType → Bool
  | .aes128GCM96 | .aes256GCM96 | .chaCha20Poly1305 | .ed25519 | .aes128CBC | .aes256CBC => true
  | _ => false

variable (suite : CipherSuite)

def derivedBytes (p : Policy) (key context : GoString) (numBytes : Nat) :
    Except CipherError GoString :=
  if p.kdf = 0 then counterMode suite.hmacSHA256 256 key context 256
  else if p.kdf = 1 then
    let bytes := (List.range numBytes).map (suite.hkdfSHA256 key context)
    match p.type with
    | .aes128GCM96 | .aes256GCM96 | .chaCha20Poly1305 => .ok bytes
    | .ed25519 => .ok (suite.ed25519Key bytes)
    | _ => .error (internalError "unsupported key type for derivation")
  else .error (internalError "unsupported key derivation mode")

def deriveKey (p : Policy) (context : GoString) (ver : Int) (numBytes : Nat) :
    Except CipherError GoString :=
  if !derivationSupported p.type then
    .error (userError ("derivation not supported for key type " ++ p.type.text))
  else if p.keys.entries.isEmpty || p.latestVersion = 0 then
    .error (internalError "unable to access the key; no key versions found")
  else if ver ≤ 0 ∨ p.latestVersion < ver then .error (userError "invalid key version")
  else if context.isEmpty then
    .error (userError "missing 'context' for key derivation; the key was created using a derived key, which means additional, per-request information must be included in order to perform operations with the key")
  else
    match safeGetKeyEntry p ver with
    | .error e => .error (.key e)
    | .ok keyEntry => derivedBytes suite p keyEntry.key context numBytes

def getKey (p : Policy) (context : GoString) (ver : Int) (numBytes : Nat) :
    Except CipherError GoString :=
  if !p.derived then
    match safeGetKeyEntry p ver with
    | .error e => .error (.key e)
    | .ok keyEntry => .ok keyEntry.key
  else deriveKey suite p context ver numBytes

def convergentVersion (p : Policy) (ver : Int) : Int :=
  if !p.convergentEncryption then 0
  else if (p.entry ver).convergentVersion ≠ 0 then (p.entry ver).convergentVersion
  else if p.convergentVersion = 0 then 1
  else p.convergentVersion

def keyBytes (kt : KeyType) : Nat := if kt = .aes128GCM96 ∨ kt = .aes128CBC then 16 else 32

def getSymmetricKeys (p : Policy) (opts : EncryptionOptions) :
    Except CipherError (GoString × GoString) :=
  let version := convergentVersion p opts.keyVersion
  let encBytes := keyBytes p.type
  let hmacBytes := if 2 < version then 32 else 0
  if opts.nonce ≠ [] ∧ (2 < version ∨ !p.convergentEncryption ∨ version ≠ 1) then
    .error (userError "nonce provided when not allowed")
  else
    match getKey suite p opts.context opts.keyVersion (encBytes + hmacBytes) with
    | .error e => .error e
    | .ok key =>
      if key.length < encBytes + hmacBytes then
        .error (internalError "could not derive key, length too small")
      else if (key.take encBytes).length ≠ encBytes then
        .error (internalError "could not derive enc key, length not correct")
      else if 2 < version then
        if (key.drop encBytes).length ≠ hmacBytes then
          .error (internalError "could not derive hmac key, length not correct")
        else .ok (key.take encBytes, key.drop encBytes)
      else .ok (key.take encBytes, opts.context)

def newCipher (kt : KeyType) (encKey : GoString) : Except CipherError Aead :=
  let size := encKey.length
  if kt = .chaCha20Poly1305 then
    if size ≠ 32 then .error (internalError "chacha20poly1305: bad key length") else .ok suite.chaCha
  else if size ≠ 16 ∧ size ≠ 24 ∧ size ≠ 32 then
    .error (internalError s!"crypto/aes: invalid key size {size}")
  else .ok suite.gcm

structure SymmetricOpts where
  convergent : Bool
  convergentVersion : Int := 0
  nonce : GoString := []
  additionalData : GoString := []
  hmacKey : GoString := []

def randomBytes (source : Except GoError GoString) (size : Nat) : Except CipherError GoString :=
  match source with
  | .error e => .error (.internal "" (some e))
  | .ok bytes => .ok ((bytes ++ List.replicate size 0).take size)

def encryptionNonce (p : Policy) (ver : Int) (plaintext : GoString) (opts : SymmetricOpts)
    (source : Except GoError GoString) : Except CipherError GoString :=
  let version := convergentVersion p ver
  let size := opts.nonce.length
  if opts.convergent then
    if version = 1 then
      if size ≠ nonceSize then
        .error (userError "base64-decoded nonce must be 12 bytes long when using convergent encryption with this key")
      else .ok opts.nonce
    else if version = 2 ∨ version = 3 then
      if opts.hmacKey.isEmpty then .error (internalError "invalid hmac key length of zero")
      else .ok ((suite.hmacSHA256 opts.hmacKey plaintext).take nonceSize)
    else .error (internalError s!"unhandled convergent version {version}")
  else if opts.nonce.isEmpty then randomBytes source nonceSize
  else if size ≠ nonceSize then
    .error (userError s!"base64-decoded nonce must be 12 bytes long but given {size} bytes")
  else .ok opts.nonce

def symmetricEncryptRaw (p : Policy) (ver : Int) (encKey plaintext : GoString)
    (opts : SymmetricOpts) (source : Except GoError GoString) : Except CipherError GoString := do
  let aead ← newCipher suite p.type encKey
  let nonce ← encryptionNonce suite p ver plaintext opts source
  let ciphertext := aead.sealed encKey nonce plaintext opts.additionalData
  if !opts.convergent || 1 < convergentVersion p ver then pure (nonce ++ ciphertext)
  else pure ciphertext

def symmetricDecryptRaw (p : Policy) (encKey ciphertext : GoString) (opts : SymmetricOpts) :
    Except CipherError GoString := do
  let aead ← newCipher suite p.type encKey
  if ciphertext.length < nonceSize then throw (userError "invalid ciphertext length")
  else
    -- the nonce of the first convergent version is left empty
    let parts :=
      if opts.convergent ∧ opts.convergentVersion = 1 then ([], ciphertext)
      else (ciphertext.take nonceSize, ciphertext.drop nonceSize)
    match aead.opened encKey parts.1 parts.2 opts.additionalData with
    | none => throw (userError "message authentication failed")
    | some plain => pure plain

def additionalData (index : Nat) (data : GoString) : List Factory → Except CipherError GoString
  | [] => .ok data
  | .none :: rest | .aead :: rest | .managedKey :: rest => additionalData (index + 1) data rest
  | .associatedData (.ok data) :: rest => additionalData (index + 1) data rest
  | .associatedData (.error e) :: _ => .error (.internal
      s!"unable to get associated_data/additional_data from factory[{index}]" (some e))
  | .unknown goType :: _ => .error (internalError (s!"unknown type of factory[{index}]: " ++ goType))

def versionText (ver : Int) : GoString := ofString "vault:v" ++ itoa ver ++ [58]

def encryptionVersion (p : Policy) (keyVersion : Int) : Except CipherError Int :=
  if keyVersion = 0 then .ok p.latestVersion
  else if keyVersion < 0 then .error (userError "requested version for encryption is negative")
  else if p.latestVersion < keyVersion then
    .error (userError "requested version for encryption is higher than the latest key version")
  else if keyVersion < p.minEncryptionVersion then
    .error (userError "requested version for encryption is less than the minimum encryption key version")
  else .ok keyVersion

def encryptWithOptions (p : Policy) (opts : EncryptionOptions) (value : GoString)
    (factories : List Factory) (source : Except GoError GoString) :
    Except CipherError GoString := do
  if !encryptionSupported p.type then
    throw (userError ("message encryption not supported for key type " ++ p.type.text))
  else
    let plaintext ← (suite.decodeBase64 value).mapError fun e => CipherError.user "" (some e)
    let ver ← encryptionVersion p opts.keyVersion
    let ciphertext ←
      if isAead p.type then do
        let (encKey, hmacKey) ← getSymmetricKeys suite p { opts with keyVersion := ver }
        let data ← additionalData 0 [] factories
        symmetricEncryptRaw suite p ver encKey plaintext
          { convergent := p.convergentEncryption, hmacKey := hmacKey, nonce := opts.nonce,
            additionalData := data } source
      else suite.encryptOther p { opts with keyVersion := ver } factories plaintext
    pure (versionText ver ++ suite.encodeBase64 ciphertext)

def parseCiphertext (value : GoString) : Except CipherError (Int × GoString) :=
  let start := ofString "vault:v"
  if !hasPrefix value start then .error (userError "invalid ciphertext: no prefix")
  else
    match cutByte 58 (trimPrefix value start) with
    | none => .error (userError "invalid ciphertext: wrong number of fields")
    | some (number, text) =>
      match atoi number with
      | none => .error (userError "invalid ciphertext: version number could not be decoded")
      -- the keys of the first implementation started at zero
      | some ver => .ok (if ver = 0 then 1 else ver, text)

def decryptionKey (p : Policy) (context : GoString) (ver : Int) : Except CipherError GoString := do
  let encKey ← getKey suite p context ver (keyBytes p.type)
  if encKey.length ≠ keyBytes p.type then
    throw (internalError "could not derive enc key, length not correct")
  else pure encKey

def decryptWithOptions (p : Policy) (opts : EncryptionOptions) (value : GoString)
    (factories : List Factory) : Except CipherError GoString := do
  if !decryptionSupported p.type then
    throw (userError ("message decryption not supported for key type " ++ p.type.text))
  else
    let (ver, text) ← parseCiphertext value
    if p.latestVersion < ver then throw (userError "invalid ciphertext: version is too new")
    else if 0 < p.minDecryptionVersion ∧ ver < p.minDecryptionVersion then
      throw (userError "ciphertext or signature version is disallowed by policy (too old)")
    else if convergentVersion p ver = 1 ∧ opts.nonce.isEmpty then
      throw (userError "invalid convergent nonce supplied")
    else
      let decoded ← (suite.decodeBase64 text).mapError fun e =>
        CipherError.user "invalid ciphertext: could not decode base64" (some e)
      let plain ←
        if isAead p.type then do
          let encKey ← decryptionKey suite p opts.context ver
          let data ← additionalData 0 [] factories
          symmetricDecryptRaw suite p encKey decoded
            { convergent := p.convergentEncryption, convergentVersion := p.convergentVersion,
              additionalData := data }
        else suite.decryptOther p { opts with keyVersion := ver } factories decoded
      pure (suite.encodeBase64 plain)

end VaultProofs.TransitCiphers
