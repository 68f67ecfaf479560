import VaultProofs.ProgramOutcomes
import VaultProofs.VaultEffects

/-!
The named keys of the transit engine: a policy with its key versions, the archive of all its
versions, and what the operations work on. An operation holds the policy's lock, so the policy in
memory is its own; stored policy and stored archive are written one after the other and each write
may fail.
-/

namespace VaultProofs.TransitKeys

open GoStrings JsonValues EffectPrograms ProgramOutcomes
open VaultEffects (GoError)

inductive KeyType where
  | aes256GCM96
  | ecdsaP256
  | ed25519
  | rsa2048
  | rsa4096
  | chaCha20Poly1305
  | ecdsaP384
  | ecdsaP521
  | aes128GCM96
  | rsa3072
  | managedKey
  | hmac
  | aes128CMAC
  | aes256CMAC
  | mlDSA
  | hybrid
  | aes192CMAC
  | slhDSA
  | aes128CBC
  | aes256CBC
  deriving DecidableEq

namespace KeyType

def text : KeyType → String
  | aes128GCM96 => "aes128-gcm96"
  | aes256GCM96 => "aes256-gcm96"
  | chaCha20Poly1305 => "chacha20-poly1305"
  | ecdsaP256 => "ecdsa-p256"
  | ecdsaP384 => "ecdsa-p384"
  | ecdsaP521 => "ecdsa-p521"
  | ed25519 => "ed25519"
  | rsa2048 => "rsa-2048"
  | rsa3072 => "rsa-3072"
  | rsa4096 => "rsa-4096"
  | hmac => "hmac"
  | managedKey => "managed_key"
  | aes128CMAC => "aes128-cmac"
  | aes256CMAC => "aes256-cmac"
  | mlDSA => "ml-dsa"
  | hybrid => "hybrid"
  | aes192CMAC => "aes192-cmac"
  | slhDSA => "slh-dsa"
  | aes128CBC => "aes128-cbc"
  | aes256CBC => "aes256-cbc"

def cmacSupported (kt : KeyType) : Bool :=
  kt ∈ [aes128CMAC, aes256CMAC, aes192CMAC]

def hmacSupported (kt : KeyType) : Bool :=
  !kt.cmacSupported && kt ≠ managedKey

def signingSupported (kt : KeyType) : Bool :=
  kt ∈ [ecdsaP256, ecdsaP384, ecdsaP521, ed25519, rsa2048, rsa3072, rsa4096, managedKey,
    mlDSA, hybrid, slhDSA]

def symmetric (kt : KeyType) : Bool :=
  kt ∈ [aes128GCM96, aes256GCM96, chaCha20Poly1305, hmac, aes128CMAC, aes256CMAC, aes192CMAC,
    aes128CBC, aes256CBC]

def isRSA (kt : KeyType) : Bool :=
  kt ∈ [rsa2048, rsa3072, rsa4096]

def isECDSA (kt : KeyType) : Bool :=
  kt ∈ [ecdsaP256, ecdsaP384, ecdsaP521]

end KeyType

inductive Curve where
  | p224
  | p256
  | p384
  | p521
  deriving DecidableEq

def Curve.name : Curve → String
  | .p224 => "P-224"
  | .p256 => "P-256"
  | .p384 => "P-384"
  | .p521 => "P-521"

def KeyType.curve (kt : KeyType) : Curve :=
  if kt = .ecdsaP384 then .p384 else if kt = .ecdsaP521 then .p521 else .p256

structure RSAPublicKey where
  n : Nat
  e : Nat
  deriving DecidableEq

def RSAPublicKey.size (key : RSAPublicKey) : Nat :=
  ((if key.n = 0 then 0 else key.n.log2 + 1) + 7) / 8

structure RSAPrivateKey where
  publicKey : RSAPublicKey
  d : Nat
  deriving DecidableEq

/-- A key as the parsers of the standard library return it. The second half of an
Ed25519 private key is its public key. -/
inductive ParsedKey where
  | ecdsaPrivate (curve : Curve) (x y d : Int)
  | ecdsaPublic (curve : Curve) (x y : Int)
  | ed25519Private (key : GoString)
  | ed25519Public (key : GoString)
  | rsaPrivate (key : RSAPrivateKey)
  | rsaPublic (key : RSAPublicKey)
  | other (goType : String)
  deriving DecidableEq

def ParsedKey.goType : ParsedKey → String
  | .ecdsaPrivate .. => "*ecdsa.PrivateKey"
  | .ecdsaPublic .. => "*ecdsa.PublicKey"
  | .ed25519Private _ => "ed25519.PrivateKey"
  | .ed25519Public _ => "ed25519.PublicKey"
  | .rsaPrivate _ => "*rsa.PrivateKey"
  | .rsaPublic _ => "*rsa.PublicKey"
  | .other goType => goType

inductive PublicKeyAlgorithm where
  | unknown
  | rsa
  | dsa
  | ecdsa
  | ed25519
  deriving DecidableEq

def PublicKeyAlgorithm.text : PublicKeyAlgorithm → String
  | .unknown => "0"
  | .rsa => "RSA"
  | .dsa => "DSA"
  | .ecdsa => "ECDSA"
  | .ed25519 => "Ed25519"

structure Certificate where
  basicConstraintsValid : Bool := false
  isCA : Bool := false
  publicKeyAlgorithm : PublicKeyAlgorithm
  publicKey : ParsedKey
  raw : GoString

structure KeyEntry where
  key : GoString := []
  hmacKey : GoString := []
  creationTime : Time := 0
  ecX : Option Int := none
  ecY : Option Int := none
  ecD : Option Int := none
  rsaKey : Option RSAPrivateKey := none
  rsaPublicKey : Option RSAPublicKey := none
  formattedPublicKey : GoString := []
  convergentVersion : Int := 0
  deprecatedCreationTime : Int := 0
  managedKeyUUID : GoString := []
  certificateChain : List GoString := []
  deriving DecidableEq

def KeyEntry.isPrivateKeyMissing (entry : KeyEntry) : Bool :=
  entry.rsaKey.isNone && entry.ecD.isNone && entry.key.isEmpty && entry.managedKeyUUID.isEmpty

/-- The key versions of a policy under their decimal version numbers. -/
abbrev KeyEntryMap := AList fun _ : Int => KeyEntry

/-- A policy. A nil `Keys` map is the empty one. -/
structure Policy where
  deleted : Bool := false
  name : GoString := []
  key : GoString := []
  keySize : Int := 0
  keys : KeyEntryMap := ∅
  derived : Bool := false
  kdf : Int := 0
  convergentEncryption : Bool := false
  exportable : Bool := false
  minDecryptionVersion : Int := 0
  minEncryptionVersion : Int := 0
  latestVersion : Int := 0
  archiveVersion : Int := 0
  archiveMinVersion : Int := 0
  minAvailableVersion : Int := 0
  deletionAllowed : Bool := false
  convergentVersion : Int := 0
  type : KeyType := .aes256GCM96
  allowPlaintextBackup : Bool := false
  autoRotatePeriod : Duration := 0
  imported : Bool := false
  allowImportedKeyRotation : Bool := false
  deriving DecidableEq

def Policy.entry (p : Policy) (version : Int) : KeyEntry :=
  (p.keys.lookup version).getD {}

inductive GoPanic where
  | indexOutOfRange
  | nilDereference
  | typeAssertion
  deriving DecidableEq

/-- How an operation ends without a result: with an error, with an error response, or
not at all. -/
inductive KeyFault where
  | failed (err : GoError)
  | refused (text : GoString)
  | panic (cause : GoPanic)

inductive KeyOp where
  | policy
  | setPolicy (p : Policy)
  | setKey (version : Int) (entry : KeyEntry)
  | getArchive
  | putArchive (keys : List KeyEntry)
  | putPolicy (p : Policy)
  | randomBytes (length : Nat)
  | generateECDSA (curve : Curve)
  | generateEd25519
  | generateRSA (bits : Nat)
  | timeNow

@[reducible] def KeyOp.Result : KeyOp → Type
  | .policy => Policy
  | .getArchive => Option (List KeyEntry)
  | .randomBytes _ => GoString
  | .generateECDSA _ => Int × Int × Int
  | .generateEd25519 => GoString
  | .generateRSA _ => RSAPrivateKey
  | .timeNow => Time
  | _ => Unit

def KeyOp.stored : KeyOp → Bool
  | .getArchive => true
  | .putArchive _ => true
  | .putPolicy _ => true
  | _ => false

def KeyOp.random : KeyOp → Bool
  | .randomBytes _ => true
  | .generateECDSA _ => true
  | .generateEd25519 => true
  | .generateRSA _ => true
  | _ => false

@[reducible] def KeyOp.Answer (op : KeyOp) : Type := Except KeyFault op.Result

abbrev keyring : Interface := ⟨KeyOp, KeyOp.Answer⟩

abbrev KeyM := Fallible KeyFault keyring

def perform (op : KeyOp) : KeyM op.Result :=
  ExceptT.mk (Prog.perform (I := keyring) op)

/-- The policy in memory, what is stored, and for the record the last entry that an
operation gave to each version. -/
structure World where
  memory : Policy := {}
  stored : Option Policy := none
  archive : Option (List KeyEntry) := none
  written : Int → Option KeyEntry := fun _ => none

/-- What a step meets: the errors of storage and of the random source, the clock, and what is
drawn. -/
structure StepEnv where
  storageError : Option GoError := none
  randomError : Option GoError := none
  now : Time := 0
  bytes : GoString := []
  point : Int × Int × Int := (0, 0, 0)
  ed25519 : GoString := []
  rsa : RSAPrivateKey := ⟨⟨0, 0⟩, 0⟩

def StepEnv.error (env : StepEnv) (op : KeyOp) : Option GoError :=
  if op.stored then env.storageError else if op.random then env.randomError else none

def effect (env : StepEnv) : (op : KeyOp) → World → op.Result × World
  | .policy, w => (w.memory, w)
  | .setPolicy p, w => ((), { w with memory := p })
  | .setKey version entry, w =>
    ((), { w with
      memory := { w.memory with keys := w.memory.keys.insert version entry },
      written := Function.update w.written version (some entry) })
  | .getArchive, w => (w.archive, w)
  | .putArchive keys, w => ((), { w with archive := some keys })
  | .putPolicy p, w => ((), { w with stored := some p })
  | .randomBytes length, w => ((env.bytes ++ List.replicate length 0).take length, w)
  | .generateECDSA _, w => (env.point, w)
  | .generateEd25519, w => (env.ed25519, w)
  | .generateRSA _, w => (env.rsa, w)
  | .timeNow, w => (env.now, w)

def exec (env : StepEnv) (op : KeyOp) (w : World) : op.Answer × World :=
  match env.error op with
  | some err => (.error (.failed err), w)
  | none => (.ok (effect env op w).1, (effect env op w).2)

abbrev Trial := World × Nat

/-- The outcomes of a step: a failed storage step is one of those that may still fail; the random
source fails as often as it likes if at all. -/
def step (randomFails : Bool) : Outcomes keyring Trial := fun op s answer s' =>
  ∃ env : StepEnv, exec env op s.1 = (answer, s'.1) ∧
    (env.randomError.isSome = true → randomFails = true) ∧
    s.2 = s'.2 + if op.stored && env.storageError.isSome then 1 else 0

def faulty (randomFails : Bool) : Logic keyring Trial :=
  allOutcomes (step randomFails)

variable {randomFails : Bool} {op : KeyOp} {ok : op.Result → Trial → Prop}
  {err : KeyFault → Trial → Prop} {s : Trial}

theorem step_done (env : StepEnv) :
    step randomFails op s (.ok (effect env op s.1).1) ((effect env op s.1).2, s.2) := by
  refine ⟨{ env with storageError := none, randomError := none }, ?_, ?_, ?_⟩
  · cases op <;> rfl
  · intro hfails
    cases hfails
  · rw [Option.isSome_none, Bool.and_false]
    rfl

theorem step_failed {n : Nat} (e : GoError) (hop : (op.stored || op.random) = true)
    (hrandom : op.stored = false → randomFails = true)
    (hcount : s.2 = n + if op.stored then 1 else 0) :
    step randomFails op s (.error (.failed e)) (s.1, n) := by
  cases hstored : op.stored with
  | true =>
    rw [hstored] at hcount
    refine ⟨{ storageError := some e }, ?_, ?_, ?_⟩
    · rw [exec, StepEnv.error, hstored]
      rfl
    · intro hfails
      cases hfails
    · rw [hstored]
      exact hcount
  | false =>
    rw [hstored, Bool.false_or] at hop
    rw [hstored] at hcount
    refine ⟨{ randomError := some e }, ?_, fun _ => hrandom hstored, ?_⟩
    · rw [exec, StepEnv.error, hstored, hop]
      rfl
    · rw [hstored]
      exact hcount

theorem step_cases {answer : op.Answer} {s' : Trial} (h : step randomFails op s answer s') :
    (∃ env, answer = .ok (effect env op s.1).1 ∧ s' = ((effect env op s.1).2, s.2)) ∨
      ∃ e n, answer = .error (.failed e) ∧ s' = (s.1, n) ∧ (op.stored || op.random) = true ∧
        (op.stored = false → randomFails = true) ∧ s.2 = n + if op.stored then 1 else 0 := by
  obtain ⟨env, hexec, hmay, hcount⟩ := h
  obtain ⟨w', n⟩ := s'
  rw [exec] at hexec
  cases hstored : op.stored with
  | true =>
    rw [hstored, Bool.true_and] at hcount
    rw [StepEnv.error, hstored, if_pos rfl] at hexec
    cases herror : env.storageError with
    | none =>
      rw [herror] at hexec hcount
      cases hexec
      cases hcount
      exact .inl ⟨env, rfl, rfl⟩
    | some e =>
      rw [herror] at hexec hcount
      cases hexec
      exact .inr ⟨e, n, rfl, rfl, rfl, Bool.noConfusion, hcount⟩
  | false =>
    rw [hstored, Bool.false_and] at hcount
    rw [StepEnv.error, hstored, if_neg Bool.false_ne_true] at hexec
    cases hcount
    split at hexec
    · rename_i e herror
      cases hexec
      split at herror
      · rename_i hrandom
        refine .inr ⟨e, s.2, rfl, rfl, hrandom, fun _ => hmay ?_, rfl⟩
        rw [herror]
        rfl
      · cases herror
    · cases hexec
      exact .inl ⟨env, rfl, rfl⟩

theorem finishes_faulty :
    Finishes (α := no_index op.Result) (faulty randomFails) (perform op) s ok err ↔
      (∀ env, ok (effect env op s.1).1 ((effect env op s.1).2, s.2)) ∧
        ∀ n e, (op.stored || op.random) = true → (op.stored = false → randomFails = true) →
          (s.2 = n + if op.stored then 1 else 0) → err (.failed e) (s.1, n) := by
  constructor
  · intro h
    refine ⟨fun env => h _ _ (step_done env), fun n e hop hmay hcount => ?_⟩
    exact h _ _ (step_failed e hop hmay hcount)
  rintro ⟨hdone, hfail⟩ answer s' hstep
  rcases step_cases hstep with ⟨env, rfl, rfl⟩ | ⟨e, n, rfl, rfl, hop, hmay, hcount⟩
  · exact hdone env
  · exact hfail n e hop hmay hcount

theorem finishes_plain (hplain : (op.stored || op.random) = false) :
    Finishes (α := no_index op.Result) (faulty randomFails) (perform op) s ok err ↔
      ∀ env, ok (effect env op s.1).1 ((effect env op s.1).2, s.2) := by
  simp [finishes_faulty, hplain]

theorem finishes_stored (hstored : op.stored = true) :
    Finishes (α := no_index op.Result) (faulty randomFails) (perform op) s ok err ↔
      (∀ env, ok (effect env op s.1).1 ((effect env op s.1).2, s.2)) ∧
        ∀ n e, s.2 = n + 1 → err (.failed e) (s.1, n) := by
  simp [finishes_faulty, hstored]

theorem finishes_random (hstored : op.stored = false) (hrandom : op.random = true) :
    Finishes (α := no_index op.Result) (faulty randomFails) (perform op) s ok err ↔
      (∀ env, ok (effect env op s.1).1 ((effect env op s.1).2, s.2)) ∧
        (randomFails = true → ∀ e, err (.failed e) s) := by
  simp only [finishes_faulty, hstored, hrandom, Bool.or_true, Bool.false_eq_true, if_false,
    Nat.add_zero, forall_const]
  grind

theorem ends_run {α : Type} {env : Nat → StepEnv} (henv : ∀ n, (env n).storageError = none)
    {post : α → Trial → Prop} {p : Prog keyring α} {s : Trial} (h : Ends (faulty true) post p s)
    (n : Nat) :
    post (p.run (numbered exec env) (s.1, n)).1 ((p.run (numbered exec env) (s.1, n)).2.1, s.2) := by
  induction p generalizing s n with
  | ret value => exact h
  | call op next ih =>
    refine ih _ (s := ((exec (env n) op s.1).2, s.2)) (h _ _ ⟨env n, rfl, fun _ => rfl, ?_⟩) (n + 1)
    rw [henv n, Option.isSome_none, Bool.and_false]
    rfl

end VaultProofs.TransitKeys
