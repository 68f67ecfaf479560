import VaultProofs.GoSlices
import VaultProofs.TransitKeys

/-!
The operations on a transit key: archiving and persisting a policy, rotation, imports, certificate
chains, the upgrade of old policies, and the handlers that trim a key and change its configuration.
-/

namespace VaultProofs.KeyOperations

open GoStrings JsonValues ProgramOutcomes GoSlices TransitKeys
open VaultEffects (GoError)

def fault (text : String) : KeyFault := .failed (.message (ofString text))

def policy : KeyM Policy := perform .policy

def setPolicy (p : Policy) : KeyM Unit := perform (.setPolicy p)

def setKey (version : Int) (entry : KeyEntry) : KeyM Unit := perform (.setKey version entry)

def putPolicy (p : Policy) : KeyM Unit := perform (.putPolicy p)

/-- Run a program whose deferred function sets fields back when an error or an error response is
returned; a panic returns nothing. -/
def restoring {α : Type} (restore : Policy → Policy) (body : KeyM α) : KeyM α := do
  match ← capture body with
  | .ok value => pure value
  | .error (.panic cause) => throw (.panic cause)
  | .error e => do
      let p ← policy
      setPolicy (restore p)
      throw e

def loadArchive : KeyM (List KeyEntry) := do
  let raw ← perform .getArchive
  pure (raw.getD [])

def storeArchive (archive : List KeyEntry) : KeyM Unit := perform (.putArchive archive)

def checkVersions (p : Policy) (keysContainsMinimum : Bool) : Except KeyFault Unit :=
  let minDecryption := p.minDecryptionVersion
  let minEncryption := p.minEncryptionVersion
  let latest := p.latestVersion
  let archived := p.archiveVersion
  if minDecryption < 1 then
    .error (fault s!"minimum decryption version of {minDecryption} is less than 1")
  else if latest < 1 then
    .error (fault s!"latest version of {latest} is less than 1")
  else if !keysContainsMinimum ∧ archived ≠ latest then
    .error (fault "need to move keys from archive but archive version not up-to-date")
  else if latest < archived then
    .error (fault s!"archive version of {archived} is greater than the latest version {latest}")
  else if 0 < minEncryption ∧ minEncryption < minDecryption then
    .error (fault s!"minimum decryption version of {minDecryption} is greater than minimum encryption version {minEncryption}")
  else if latest < minDecryption then
    .error (fault s!"minimum decryption version of {minDecryption} is greater than the latest version {latest}")
  else .ok ()

/-- The loop that moves keys from the archive, with whether it came to its end. -/
def loadKeys (archive : List KeyEntry) : List Int → Policy → Policy × Bool
  | [], p => (p, true)
  | i :: rest, p =>
    match slot archive (i - p.minAvailableVersion) with
    | none => (p, false)
    | some entry => loadKeys archive rest { p with keys := p.keys.insert i entry }

/-- The loop that brings the archive up to date. -/
def fillArchive : List Int → Policy → List KeyEntry → Policy × List KeyEntry × Bool
  | [], p, archive => (p, archive, true)
  | i :: rest, p, archive =>
    match store archive (i - p.minAvailableVersion) (p.entry i) with
    | none => (p, archive, false)
    | some archive' => fillArchive rest { p with archiveVersion := i } archive'

def growArchive (p : Policy) (archive : List KeyEntry) : List KeyEntry :=
  if (archive.length : Int) + p.minAvailableVersion < p.latestVersion + 1 then
    resize {} archive (p.latestVersion - p.minAvailableVersion + 1)
  else archive

def trimArchive (p : Policy) (archive : List KeyEntry) : Option (Policy × List KeyEntry) :=
  if p.archiveMinVersion < p.minAvailableVersion then
    (sliceFrom archive (p.minAvailableVersion - p.archiveMinVersion)).map fun trimmed =>
      ({ p with archiveMinVersion := p.minAvailableVersion }, trimmed)
  else some (p, archive)

def dropKeys (p : Policy) : Policy :=
  let dropped := upTo (p.latestVersion - p.keys.entries.length + 1) (p.minDecryptionVersion - 1)
  { p with keys := dropped.foldl (fun keys i => keys.erase i) p.keys }

def moveFromArchive (p : Policy) (archive : List KeyEntry) : KeyM Unit := do
  let moved := loadKeys archive (upTo p.minDecryptionVersion p.latestVersion) p
  setPolicy moved.1
  if moved.2 then pure () else throw (.panic .indexOutOfRange)

def moveToArchive (p : Policy) (archive : List KeyEntry) : KeyM Unit := do
  let filled := fillArchive (upTo (p.archiveVersion + 1) p.latestVersion) p (growArchive p archive)
  setPolicy filled.1
  if filled.2.2 then
    match trimArchive filled.1 filled.2.1 with
    | none => throw (.panic .indexOutOfRange)
    | some (p, archive) => do
        setPolicy p
        storeArchive archive
        setPolicy (dropKeys p)
  else throw (.panic .indexOutOfRange)

def handleArchiving : KeyM Unit := do
  let p ← policy
  let keysContainsMinimum := (p.keys.lookup p.minDecryptionVersion).isSome
  resume (checkVersions p keysContainsMinimum)
  let archive ← loadArchive
  if keysContainsMinimum then moveToArchive p archive
  else moveFromArchive p archive

def persist : KeyM Unit := do
  let prior ← policy
  if prior.deleted then throw (fault "key has been deleted, not persisting")
  else
    restoring
      (fun p => { p with archiveVersion := prior.archiveVersion, keys := prior.keys }) do
        handleArchiving
        let p ← policy
        putPolicy p

/-- The parsers and encoders of the standard library; `parsePKCS8PrivateKey` is the parser with its
two fall-backs. -/
structure KeyFormats where
  parsePKCS8PrivateKey : GoString → Except GoError ParsedKey
  decodePEM : GoString → Option GoString
  parsePKIXPublicKey : GoString → Except GoError ParsedKey
  marshalPKIXPublicKey : Curve → Int → Int → Except GoError GoString
  encodePEM : GoString → GoString
  encodeBase64 : GoString → GoString
  decodeBase64 : GoString → Except GoError GoString

section formats

variable (formats : KeyFormats)

def formatPoint (curve : Curve) (x y : Int) : Except KeyFault GoString :=
  match formats.marshalPKIXPublicKey curve x y with
  | .error e => .error (.failed (.wrapped "error marshaling public key" e))
  | .ok derBytes =>
    if formats.encodePEM derBytes = [] then .error (fault "error PEM-encoding public key")
    else .ok (formats.encodePEM derBytes)

def wrongType (kt : KeyType) (parsedKey : ParsedKey) : KeyFault :=
  fault ("invalid key type: expected " ++ kt.text ++ ", got " ++ parsedKey.goType)

def parseECDSA (kt : KeyType) (parsedKey : ParsedKey) (curve : Curve) (x y : Int)
    (d : Option Int) (entry : KeyEntry) : Except KeyFault KeyEntry :=
  if !kt.isECDSA then .error (wrongType kt parsedKey)
  else if curve ≠ kt.curve then
    .error (fault ("invalid curve: expected " ++ kt.curve.name ++ ", got " ++ curve.name))
  else
    match formatPoint formats curve x y with
    | .error e => .error e
    | .ok pem =>
      .ok { entry with
        ecX := some x, ecY := some y, ecD := d <|> entry.ecD, formattedPublicKey := pem }

def rsaKeyBytes (kt : KeyType) : Nat :=
  if kt = .rsa3072 then 384 else if kt = .rsa4096 then 512 else 256

def parseRSA (kt : KeyType) (parsedKey : ParsedKey) (publicKey : RSAPublicKey)
    (rsaKey : Option RSAPrivateKey) (entry : KeyEntry) : Except KeyFault KeyEntry :=
  let expected := rsaKeyBytes kt
  let size := publicKey.size
  if !kt.isRSA then .error (wrongType kt parsedKey)
  else if size ≠ expected then
    .error (fault s!"invalid key size: expected {expected} bytes, got {size} bytes")
  else .ok { entry with rsaKey := rsaKey <|> entry.rsaKey, rsaPublicKey := some publicKey }

def parseEd25519 (kt : KeyType) (parsedKey : ParsedKey) (publicKey : GoString)
    (key : Option GoString) (entry : KeyEntry) : Except KeyFault KeyEntry :=
  if kt ≠ .ed25519 then .error (wrongType kt parsedKey)
  else .ok { entry with
    key := key.getD entry.key, formattedPublicKey := formats.encodeBase64 publicKey }

def parseFromKey (kt : KeyType) (parsedKey : ParsedKey) (entry : KeyEntry) :
    Except KeyFault KeyEntry :=
  match parsedKey with
  | .ecdsaPrivate curve x y d => parseECDSA formats kt parsedKey curve x y (some d) entry
  | .ecdsaPublic curve x y => parseECDSA formats kt parsedKey curve x y none entry
  | .ed25519Private key => parseEd25519 formats kt parsedKey (key.drop 32) (some key) entry
  | .ed25519Public key => parseEd25519 formats kt parsedKey key none entry
  | .rsaPrivate key => parseRSA kt parsedKey key.publicKey (some key) entry
  | .rsaPublic key => parseRSA kt parsedKey key none entry
  | .other _ => .error (wrongType kt parsedKey)

def generate (p : Policy) (entry : KeyEntry) : KeyM KeyEntry := do
  match p.type with
  | .aes256GCM96 | .chaCha20Poly1305 | .aes256CMAC | .aes256CBC =>
    let newKey ← perform (.randomBytes 32)
    pure { entry with key := newKey }
  | .aes128GCM96 | .aes128CMAC | .aes128CBC =>
    let newKey ← perform (.randomBytes 16)
    pure { entry with key := newKey }
  | .aes192CMAC =>
    let newKey ← perform (.randomBytes 24)
    pure { entry with key := newKey }
  | .hmac =>
    if p.keySize < 32 ∨ 512 < p.keySize then
      throw (fault "invalid key size for HMAC key, must be between 32 and 512 bytes")
    else
      let newKey ← perform (.randomBytes p.keySize.toNat)
      pure { entry with key := newKey, hmacKey := newKey }
  | .ecdsaP256 | .ecdsaP384 | .ecdsaP521 =>
    let (x, y, d) ← perform (.generateECDSA p.type.curve)
    let pem ← resume (formatPoint formats p.type.curve x y)
    pure { entry with ecD := some d, ecX := some x, ecY := some y, formattedPublicKey := pem }
  | .ed25519 =>
    let key ← perform .generateEd25519
    pure { entry with key := key, formattedPublicKey := formats.encodeBase64 (key.drop 32) }
  | .rsa2048 | .rsa3072 | .rsa4096 =>
    let rsaKey ← perform (.generateRSA (8 * rsaKeyBytes p.type))
    pure { entry with rsaKey := some rsaKey, rsaPublicKey := some rsaKey.publicKey }
  | .managedKey | .mlDSA | .hybrid | .slhDSA =>
    throw (fault ("unsupported key type " ++ p.type.text))

def newEntry : KeyM KeyEntry := do
  let now ← perform .timeNow
  pure { creationTime := now, deprecatedCreationTime := now / 1000000000 }

def currentConvergentVersion : Int := 3

def addVersion (entry : KeyEntry) : KeyM Unit := do
  let p ← policy
  setPolicy { p with latestVersion := p.latestVersion + 1 }
  setKey (p.latestVersion + 1) entry
  let p ← policy
  setPolicy { p with
    minDecryptionVersion := if p.minDecryptionVersion = 0 then 1 else p.minDecryptionVersion }

def withHMACKey (needed : Bool) (entry : KeyEntry) : KeyM KeyEntry :=
  if needed then do
    let hmacKey ← perform (.randomBytes 32)
    pure { entry with hmacKey := hmacKey }
  else pure entry

def withConvergentVersion (p : Policy) (entry : KeyEntry) : KeyEntry :=
  if p.convergentEncryption ∧ (p.convergentVersion = -1 ∨ 1 < p.convergentVersion) then
    { entry with convergentVersion := currentConvergentVersion }
  else entry

def rotateInMemory : KeyM Unit := do
  let entry ← newEntry
  let p ← policy
  let entry ← withHMACKey (!p.type.cmacSupported && p.type ≠ .hmac) entry
  let entry ← generate formats p entry
  addVersion (withConvergentVersion p entry)

def rotate : KeyM Unit := do
  let prior ← policy
  if prior.imported && !prior.allowImportedKeyRotation then
    throw (.failed (.message (ofString "imported key " ++ prior.name ++
      ofString " does not allow rotation within Vault")))
  else
    restoring
      (fun p => { p with
        latestVersion := prior.latestVersion,
        minDecryptionVersion := prior.minDecryptionVersion,
        keys := prior.keys }) do
        rotateInMemory formats
        let p ← policy
        setPolicy { p with imported := false }
        persist

def safeGetKeyEntry (p : Policy) (version : Int) : Except KeyFault KeyEntry :=
  match p.keys.lookup version with
  | none => .error (fault "no such key version")
  | some entry => .ok entry

def mismatch : KeyFault := fault "cannot import key, key pair does not match"

def badPublicKey : KeyFault := fault "failed to parse key entry public key: invalid PEM blob"

def checkPair (parsedKey : ParsedKey) (entry : KeyEntry) : Except KeyFault Unit :=
  match parsedKey with
  | .ecdsaPrivate curve x y _ =>
    match formats.decodePEM entry.formattedPublicKey with
    | none => .error badPublicKey
    | some block =>
      match formats.parsePKIXPublicKey block with
      | .error e => .error (.failed (.wrapped "failed to parse key entry public key" e))
      | .ok (.ecdsaPublic curve' x' y') =>
        if curve' = curve ∧ x' = x ∧ y' = y then .ok () else .error mismatch
      | .ok _ => .error (.panic .typeAssertion)
  | .rsaPrivate key =>
    match entry.rsaPublicKey with
    | none => .error (.panic .nilDereference)
    | some publicKey => if publicKey = key.publicKey then .ok () else .error mismatch
  | .ed25519Private key =>
    match formats.decodeBase64 entry.formattedPublicKey with
    | .error e => .error (.failed (.wrapped "failed to parse key entry public key" e))
    | .ok publicKey => if publicKey = key.drop 32 then .ok () else .error mismatch
  | _ => .ok ()

def withPrivateKey (p : Policy) (version : Int) (key : GoString) : Except KeyFault KeyEntry := do
  let entry ← safeGetKeyEntry p version
  let parsedKey ← (formats.parsePKCS8PrivateKey key).mapError KeyFault.failed
  checkPair formats parsedKey entry
  parseFromKey formats p.type parsedKey entry

def importPrivateKeyForVersion (version : Int) (key : GoString) : KeyM Unit := do
  let p ← policy
  let entry ← resume (withPrivateKey formats p version key)
  setKey version entry
  persist

def keySizeFits (kt : KeyType) (length : Nat) : Bool :=
  match kt with
  | .aes128GCM96 | .aes128CMAC | .aes128CBC => length == 16
  | .aes256GCM96 | .chaCha20Poly1305 | .aes256CMAC | .aes256CBC => length == 32
  | .aes192CMAC => length == 24
  | .hmac => 32 ≤ length && length ≤ 512
  | _ => true

def parseImported (key : GoString) (isPrivateKey : Bool) : Except KeyFault ParsedKey :=
  if isPrivateKey then (formats.parsePKCS8PrivateKey key).mapError KeyFault.failed
  else
    match formats.decodePEM key with
    | none => .error (fault "error parsing public key: not in PEM format")
    | some block =>
      match formats.parsePKIXPublicKey block with
      | .error e => .error (.failed (.wrapped "error parsing public key" e))
      | .ok parsedKey => .ok parsedKey

def importedEntry (p : Policy) (key : GoString) (isPrivateKey : Bool) (entry : KeyEntry) :
    Except KeyFault KeyEntry :=
  let size := key.length
  if p.type = .ed25519 ∧ p.derived ∧ !isPrivateKey then
    .error (fault "unable to import only public key for derived Ed25519 key: imported key should not be an Ed25519 key pair but is instead an HKDF key")
  else if !keySizeFits p.type size then
    .error (fault (s!"invalid key size {size} bytes for key type " ++ p.type.text))
  else if p.type.symmetric then
    .ok { entry with key := key, hmacKey := if p.type = .hmac then key else entry.hmacKey }
  else
    match parseImported formats key isPrivateKey with
    | .error e => .error e
    | .ok parsedKey => parseFromKey formats p.type parsedKey entry

/-- The import of the private half of the latest version, when it is missing. Its errors
are dropped. -/
def completeLatest (p : Policy) (key : GoString) (isPrivateKey : Bool) : KeyM Bool :=
  if 0 < p.latestVersion ∧ (p.entry p.latestVersion).isPrivateKeyMissing ∧ isPrivateKey then do
    match ← capture (importPrivateKeyForVersion formats p.latestVersion key) with
    | .ok _ => pure true
    | .error (.panic cause) => throw (.panic cause)
    | .error _ => pure false
  else pure false

def importPublicOrPrivate (key : GoString) (isPrivateKey : Bool) : KeyM Unit := do
  let entry ← newEntry
  let p ← policy
  if ← completeLatest formats p key isPrivateKey then pure ()
  else
    let entry ← withHMACKey (p.type ≠ .hmac) entry
    let entry ← resume (importedEntry formats p key isPrivateKey entry)
    let p ← policy
    setPolicy { p with keySize := if p.type = .hmac then key.length else p.keySize }
    addVersion entry
    persist

def certKeyMatches (kt : KeyType) (algorithm : PublicKeyAlgorithm) : Bool :=
  match kt with
  | .ecdsaP256 | .ecdsaP384 | .ecdsaP521 => algorithm = .ecdsa
  | .ed25519 => algorithm = .ed25519
  | .rsa2048 | .rsa3072 | .rsa4096 => algorithm = .rsa
  | _ => false

def validateLeafCertKeyMatch (p : Policy) (version : Int) (cert : Certificate) :
    Except KeyFault Bool :=
  if !p.type.signingSupported then
    .error (fault ("key type '" ++ p.type.text ++ "' does not support signing"))
  else if !certKeyMatches p.type cert.publicKeyAlgorithm then
    .error (fault ("provided leaf certificate public key algorithm '" ++
      cert.publicKeyAlgorithm.text ++ "' does not match the transit key type '" ++
      p.type.text ++ "'"))
  else
    match safeGetKeyEntry p version with
    | .error e => .error e
    | .ok entry =>
      match cert.publicKeyAlgorithm, cert.publicKey with
      | .ecdsa, .ecdsaPublic curve x y =>
        match entry.ecX, entry.ecY with
        | some x', some y' => .ok (x' = x ∧ y' = y ∧ p.type.curve = curve)
        | _, _ => .error (.panic .nilDereference)
      | .ed25519, certKey =>
        if p.derived then
          .error (fault "operation not supported on keys with derivation enabled")
        else
          match certKey, formats.decodeBase64 entry.formattedPublicKey with
          | .ed25519Public _, .error e => .error (.failed e)
          | .ed25519Public key, .ok publicKey => .ok (publicKey = key)
          | _, _ => .error (.panic .typeAssertion)
      | .rsa, .rsaPublic key =>
        match entry.rsaKey with
        | none => .error (.panic .nilDereference)
        | some rsaKey => .ok (rsaKey.publicKey = key)
      | .unknown, _ => .error (fault "certificate signed with an unknown algorithm")
      | .dsa, _ => .ok false
      | _, _ => .error (.panic .typeAssertion)

def validateChain (p : Policy) (version : Int) : List Certificate → Except KeyFault Unit
  | [] => .error (fault "expected at least one certificate in the parsed certificate chain")
  | leaf :: rest =>
    if leaf.basicConstraintsValid && leaf.isCA then
      .error (fault "certificate in the first position is not a leaf certificate")
    else if rest.any fun cert => cert.basicConstraintsValid && !cert.isCA then
      .error (fault "provided certificate chain contains more than one leaf certificate")
    else
      match validateLeafCertKeyMatch formats p version leaf with
      | .error (.failed e) => .error (.failed (.wrapped
          "could not validate key match between leaf certificate key and key version in transit" e))
      | .error e => .error e
      | .ok false =>
        .error (fault "leaf certificate public key does match the key version selected")
      | .ok true => .ok ()

def withCertificateChain (p : Policy) (version : Int) (certChain : List Certificate) :
    Except KeyFault KeyEntry := do
  validateChain formats p version certChain
  let entry ← safeGetKeyEntry p version
  pure { entry with certificateChain := certChain.map Certificate.raw }

def validateAndPersistCertificateChain (version : Int) (certChain : List Certificate) :
    KeyM Unit := do
  let p ← policy
  let entry ← resume (withCertificateChain formats p version certChain)
  setKey version entry
  persist

end formats

def migrateKeyToKeysMap : KeyM Unit := do
  let entry ← newEntry
  let p ← policy
  setPolicy { p with keys := ∅, key := [] }
  setKey 1 { entry with key := p.key }

/-- Fill in the HMAC key of the latest version, with whether it was missing. The key
type's own key is set on a copy that is not stored. -/
def fillHMACKey : KeyM Bool := do
  let p ← policy
  if p.type.hmacSupported && (p.entry p.latestVersion).hmacKey.isEmpty then
    let hmacKey ← perform (.randomBytes 32)
    setKey p.latestVersion { p.entry p.latestVersion with hmacKey := hmacKey }
    pure true
  else pure false

def upgradeVersions (p : Policy) : Policy :=
  { p with
    latestVersion :=
      if p.latestVersion = 0 ∧ p.keys.entries.length ≠ 0 then p.keys.entries.length
      else p.latestVersion,
    minDecryptionVersion := if p.minDecryptionVersion = 0 then 1 else p.minDecryptionVersion,
    convergentVersion :=
      if p.convergentEncryption ∧ p.convergentVersion = 0 then 1 else p.convergentVersion }

def upgrade : KeyM Unit := do
  let prior ← policy
  restoring
    (fun p => { p with
      key := prior.key,
      latestVersion := prior.latestVersion,
      minDecryptionVersion := prior.minDecryptionVersion,
      convergentVersion := prior.convergentVersion,
      keys := prior.keys }) do
      if !prior.key.isEmpty then migrateKeyToKeysMap else pure ()
      let p ← policy
      setPolicy (upgradeVersions p)
      let filled ← fillHMACKey
      if !prior.key.isEmpty || decide (upgradeVersions p ≠ p) || p.archiveVersion = 0 || filled then
        persist
      else pure ()

structure KeyPolicyResponse where
  policy : Policy
  warnings : List GoString := []

/-- A version of an RSA key without any RSA key cannot be shown. -/
def formatKeyPolicy (p : Policy) : Except KeyFault KeyPolicyResponse :=
  if p.type.isRSA && p.keys.entries.any fun e => e.2.rsaKey.isNone && e.2.rsaPublicKey.isNone then
    .error (.panic .nilDereference)
  else .ok { policy := p }

def refusal (text : String) : KeyFault := .refused (ofString text)

def checkTrim (p : Policy) (minAvailableVersion : Int) : Except KeyFault Unit :=
  if minAvailableVersion < p.minAvailableVersion then
    .error (refusal "minimum available version cannot be decremented")
  else if p.minEncryptionVersion = 0 then
    .error (refusal "minimum available version cannot be set when minimum encryption version is not set")
  else if p.minDecryptionVersion = 0 then
    .error (refusal "minimum available version cannot be set when minimum decryption version is not set")
  else if p.minEncryptionVersion < minAvailableVersion then
    .error (refusal "minimum available version cannot be greater than minmum encryption version")
  else if p.minDecryptionVersion < minAvailableVersion then
    .error (refusal "minimum available version cannot be greater than minimum decryption version")
  else if minAvailableVersion < 0 then
    .error (refusal "minimum available version cannot be negative")
  else if minAvailableVersion = 0 then
    .error (refusal "minimum available version should be positive")
  else .ok ()

def pathTrimUpdate (minAvailableVersionRaw : Except GoError (Option Int)) :
    KeyM KeyPolicyResponse := do
  let p ← policy
  match minAvailableVersionRaw with
  | .error e => throw (.failed e)
  | .ok none => throw (refusal "missing min_available_version")
  | .ok (some minAvailableVersion) =>
    resume (checkTrim p minAvailableVersion)
    setPolicy { p with minAvailableVersion := minAvailableVersion }
    restoring (fun q => { q with minAvailableVersion := p.minAvailableVersion }) persist
    let p ← policy
    resume (formatKeyPolicy p)

structure ConfigRequest where
  minDecryptionVersion : Option Int := none
  minEncryptionVersion : Option Int := none
  deletionAllowed : Option Bool := none
  exportable : Option Bool := none
  allowPlaintextBackup : Option Bool := none
  /-- In seconds. -/
  autoRotatePeriod : Except GoError (Option Int) := .ok none

structure KeyConfig where
  minDecryptionVersion : Int
  minEncryptionVersion : Int
  deletionAllowed : Bool
  exportable : Bool
  allowPlaintextBackup : Bool
  autoRotatePeriod : Duration

def configOf (p : Policy) : KeyConfig where
  minDecryptionVersion := p.minDecryptionVersion
  minEncryptionVersion := p.minEncryptionVersion
  deletionAllowed := p.deletionAllowed
  exportable := p.exportable
  allowPlaintextBackup := p.allowPlaintextBackup
  autoRotatePeriod := p.autoRotatePeriod

def withConfig (p : Policy) (config : KeyConfig) : Policy :=
  { p with
    minDecryptionVersion := config.minDecryptionVersion,
    minEncryptionVersion := config.minEncryptionVersion,
    deletionAllowed := config.deletionAllowed,
    exportable := config.exportable,
    allowPlaintextBackup := config.allowPlaintextBackup,
    autoRotatePeriod := config.autoRotatePeriod }

abbrev Change := KeyConfig × Bool

def forcedMinimum (requested : Int) : Int :=
  if requested = 0 then 1 else requested

def configWarnings (req : ConfigRequest) : List GoString :=
  if req.minDecryptionVersion = some 0 then
    [ofString "since Vault 0.3, transit key numbering starts at 1; forcing minimum to 1"]
  else []

def configMinDecryption (requested : Option Int) (latest : Int) (config : KeyConfig) :
    Except KeyFault Change :=
  match requested with
  | none => .ok (config, false)
  | some version =>
    let minimum := forcedMinimum version
    if version < 0 then .error (refusal "min decryption version cannot be negative")
    else if minimum = config.minDecryptionVersion then .ok (config, false)
    else if latest < minimum then
      .error (refusal s!"cannot set min decryption version of {minimum}, latest key version is {latest}")
    else .ok ({ config with minDecryptionVersion := minimum }, true)

def configMinEncryption (requested : Option Int) (latest : Int) (config : KeyConfig) :
    Except KeyFault Change :=
  match requested with
  | none => .ok (config, false)
  | some version =>
    if version < 0 then .error (refusal "min encryption version cannot be negative")
    else if version = config.minEncryptionVersion then .ok (config, false)
    else if latest < version then
      .error (refusal s!"cannot set min encryption version of {version}, latest key version is {latest}")
    else .ok ({ config with minEncryptionVersion := version }, true)

def checkMinimums (config : KeyConfig) : Except KeyFault Unit :=
  let minEncryption := config.minEncryptionVersion
  let minDecryption := config.minDecryptionVersion
  if 0 < minEncryption ∧ minEncryption < minDecryption then
    .error (refusal s!"cannot set min encryption/decryption values; min encryption version of {minEncryption} must be greater than or equal to min decryption version of {minDecryption}")
  else .ok ()

/-- The flags of the request: deletion can be switched both ways, the other two only on. In between,
the minimum decryption version of old policies is forced to 1. -/
def configFlags (req : ConfigRequest) (config : KeyConfig) : Change :=
  let deletion := req.deletionAllowed.getD config.deletionAllowed
  let exportable := config.exportable || req.exportable.getD false
  let backup := config.allowPlaintextBackup || req.allowPlaintextBackup.getD false
  ({ config with
      deletionAllowed := deletion,
      minDecryptionVersion :=
        if config.minDecryptionVersion = 0 then 1 else config.minDecryptionVersion,
      exportable := exportable,
      allowPlaintextBackup := backup },
    deletion != config.deletionAllowed || config.minDecryptionVersion = 0 ||
      exportable != config.exportable || backup != config.allowPlaintextBackup)

/-- The period is set before it is refused for managed keys. -/
def configAutoRotate (requested : Option Int) (kt : KeyType) (config : KeyConfig) :
    KeyConfig × Except KeyFault Bool :=
  match requested with
  | none => (config, .ok false)
  | some seconds =>
    let period : Duration := 1000000000 * seconds
    if period ≠ 0 ∧ period < 3600 * 1000000000 then
      (config, .error (refusal "auto rotate period must be 0 to disable or at least an hour"))
    else
      ({ config with autoRotatePeriod := period },
        if kt = .managedKey ∧ period ≠ 0 then
          .error (refusal "Auto rotation can not be set for managed keys")
        else .ok (period != config.autoRotatePeriod))

def checkAvailable (minAvailableVersion : Int) (config : KeyConfig) : Except KeyFault Unit :=
  if config.minEncryptionVersion < minAvailableVersion then
    .error (refusal "min encryption version should not be less than min available version")
  else if config.minDecryptionVersion < minAvailableVersion then
    .error (refusal "min decryption version should not be less then min available version")
  else .ok ()

/-- The configuration as the request leaves it in memory, and the error or whether the policy has to
be persisted. -/
def configure (req : ConfigRequest) (p : Policy) : KeyConfig × Except KeyFault Bool :=
  match configMinDecryption req.minDecryptionVersion p.latestVersion (configOf p) with
  | .error e => (configOf p, .error e)
  | .ok (config, decryption) =>
    match configMinEncryption req.minEncryptionVersion p.latestVersion config with
    | .error e => (config, .error e)
    | .ok (config, encryption) =>
      match checkMinimums config with
      | .error e => (config, .error e)
      | .ok _ =>
        let (config, flags) := configFlags req config
        match req.autoRotatePeriod with
        | .error e => (config, .error (.failed e))
        | .ok requested =>
          match configAutoRotate requested p.type config with
          | (config, .error e) => (config, .error e)
          | (config, .ok rotation) =>
            if decryption || encryption || flags || rotation then
              (config, (checkAvailable p.minAvailableVersion config).map fun _ => true)
            else (config, .ok false)

def restoreConfig (original p : Policy) : Policy :=
  { p with
    minDecryptionVersion := original.minDecryptionVersion,
    minEncryptionVersion := original.minEncryptionVersion,
    deletionAllowed := original.deletionAllowed,
    exportable := original.exportable,
    allowPlaintextBackup := original.allowPlaintextBackup }

def pathKeysConfigWrite (req : ConfigRequest) : KeyM KeyPolicyResponse := do
  let original ← policy
  restoring (restoreConfig original) do
    setPolicy (withConfig original (configure req original).1)
    let persistNeeded ← resume (configure req original).2
    if persistNeeded then persist else pure ()
    let p ← policy
    let resp ← resume (formatKeyPolicy p)
    pure { resp with warnings := configWarnings req }

end VaultProofs.KeyOperations
