import Mathlib.Logic.Function.Basic
import VaultProofs.RunHistories

/-!
How the barrier counts the encryptions of its active key: in a counter of its own, and in the key,
which every clone of the keyring shares.
-/

namespace VaultProofs.EncryptionCounts

open RunHistories

structure RotationConfig where
  disabled : Bool
  maxOperations : Int
  interval : Int

/-- The keys are those of the keyring, by term. -/
structure Barrier where
  activeTerm : Nat
  encryptions : Nat → Nat
  installTime : Nat → Option Int
  unaccountedEncryptions : Int
  /-- The encryptions with the active key since it is active. -/
  tracked : Nat

/-- The write of the keyring, or of the root key after it. -/
inductive Write where
  | keyring
  | rootKey
  deriving DecidableEq

def Barrier.count (b : Barrier) : Int :=
  b.unaccountedEncryptions + b.encryptions b.activeTerm

def Barrier.encryptTracked (b : Barrier) (term : Nat) : Barrier :=
  { b with
    unaccountedEncryptions := b.unaccountedEncryptions + 1
    tracked := if term = b.activeTerm then b.tracked + 1 else b.tracked }

/-- The root key is encrypted with the active key of the keyring that is persisted. -/
def Barrier.persistKeyring (b : Barrier) (activeTerm : Nat) (failing : Option Write) : Barrier :=
  if failing = some .keyring then b else b.encryptTracked activeTerm

def Barrier.addEncryptions (b : Barrier) (n : Nat) : Barrier :=
  { b with
    encryptions := Function.update b.encryptions b.activeTerm (b.encryptions b.activeTerm + n) }

def Barrier.persistEncryptions (b : Barrier) (failing : Option Write) : Barrier :=
  if 0 < b.unaccountedEncryptions then
    let newEncs := b.unaccountedEncryptions + 1
    let b' := (b.addEncryptions newEncs.toNat).persistKeyring b.activeTerm failing
    if failing = none then { b' with unaccountedEncryptions := b'.unaccountedEncryptions - newEncs }
    else { b' with encryptions := b.encryptions }
  else b

def oneYear : Int := 24 * 365 * 3600

def Barrier.rotateReason (config : RotationConfig) (now : Int) (b : Barrier) : Option String :=
  let installTime := b.installTime b.activeTerm
  if config.disabled then none
  else if b.encryptions b.activeTerm = 0 ∧ installTime.any (now - · > oneYear) then
    some "legacy rotation"
  else if b.count > config.maxOperations then some "reached max operations"
  else if config.interval > 0 ∧ installTime.all (now - · > config.interval) then
    some "rotation interval reached"
  else none

def Barrier.checkBarrierAutoRotate (config : RotationConfig) (now : Int) (failing : Option Write)
    (b : Barrier) : Option String × Barrier :=
  match b.rotateReason config now with
  | some reason => (some reason, b)
  | none => (none, b.persistEncryptions failing)

-- the keys of the new keyring are those of the old one, whose counts are set to zero with them
def Barrier.addKey (b : Barrier) : Barrier :=
  { b with encryptions := fun _ => 0 }

def Barrier.rotate (b : Barrier) (now : Int) (failing : Option Write) : Barrier :=
  if b.activeTerm = 0xffffffff then b
  else
    let b' := b.addKey.persistKeyring (b.activeTerm + 1) failing
    if failing = none then
      { b' with
        activeTerm := b.activeTerm + 1
        installTime := Function.update b.installTime (b.activeTerm + 1) (some now)
        unaccountedEncryptions := 0
        tracked := 0 }
    else b'

inductive Call where
  | put (term : Nat)
  | checkBarrierAutoRotate (config : RotationConfig) (now : Int) (failing : Option Write)
  | rotate (now : Int) (failing : Option Write)

def step (b : Barrier) : Call → Barrier
  | .put term => b.encryptTracked term
  | .checkBarrierAutoRotate config now failing => (b.checkBarrierAutoRotate config now failing).2
  | .rotate now failing => b.rotate now failing

/-- A rotation fails to persist the keyring only while the active key has nothing on its account. -/
def Recounts (b : Barrier) : Call → Prop
  | .rotate _ (some _) => b.encryptions b.activeTerm = 0
  | _ => True

instance (b : Barrier) (call : Call) : Decidable (Recounts b call) := by
  unfold Recounts
  split <;> infer_instance

def Counted (b : Barrier) : Prop :=
  b.tracked ≤ b.count

variable {b : Barrier} {failing : Option Write}

theorem Counted.persistEncryptions (h : Counted b) : Counted (b.persistEncryptions failing) := by
  rw [Barrier.persistEncryptions]
  split
  · simp only [Counted, Barrier.count] at h
    rcases failing with _ | _ | _ <;>
      simp [Counted, Barrier.count, Barrier.persistKeyring, Barrier.encryptTracked,
        Barrier.addEncryptions] <;> omega
  · exact h

theorem Counted.rotate (h : Counted b) (now : Int)
    (hfails : failing ≠ none → b.encryptions b.activeTerm = 0) : Counted (b.rotate now failing) := by
  simp only [Counted, Barrier.count] at h
  rw [Barrier.rotate]
  split
  · exact h
  · rcases failing with _ | _ | _ <;>
      simp_all [Counted, Barrier.count, Barrier.persistKeyring, Barrier.encryptTracked,
        Barrier.addKey]
    omega

theorem Counted.step (h : Counted b) (call : Call) (hrecounts : Recounts b call) :
    Counted (step b call) := by
  cases call with
  | put term =>
    simp only [Counted, Barrier.count, EncryptionCounts.step, Barrier.encryptTracked] at h ⊢
    split <;> push_cast <;> omega
  | checkBarrierAutoRotate config now failing =>
    rw [EncryptionCounts.step, Barrier.checkBarrierAutoRotate]
    split
    · exact h
    · exact h.persistEncryptions
  | rotate now failing =>
    refine h.rotate now fun hfails => ?_
    cases failing with
    | none => exact absurd rfl hfails
    | some write => exact hrecounts

/-- If no rotation fails after encryptions were put on the account of the key, its count never falls
behind, and a check finds a reason to rotate the key once its encryptions exceed the limit. -/
theorem encryptions_never_undercounted {calls : List Call} (hb : Counted b)
    (hrun : Orderly step Recounts b calls) :
    let b' := final step b calls
    b'.tracked ≤ b'.count ∧ ∀ (config : RotationConfig) now failing, config.disabled = false →
      b'.tracked > config.maxOperations →
        (b'.checkBarrierAutoRotate config now failing).1 ≠ none := by
  have hend := hrun.keeps (fun _ call h => h.step call) hb
  refine ⟨hend, fun config now failing henabled hlimit => ?_⟩
  have hcount := Int.lt_of_lt_of_le hlimit hend
  grind [Barrier.checkBarrierAutoRotate, Barrier.rotateReason]

def newBarrier : Barrier :=
  ⟨1, fun _ => 0, fun _ => some 0, 0, 0⟩

def accounted : List Call :=
  [.put 1, .put 1, .checkBarrierAutoRotate ⟨false, 9, 0⟩ 1 none]

theorem accounted_encryptions_counted : (final step newBarrier accounted).tracked ≤
    (final step newBarrier accounted).count :=
  (encryptions_never_undercounted (by exact Int.le_refl 0) (by decide)).1

/-- After a rotation that fails the key stays the active one, with nothing on its account. -/
example : let b := final step newBarrier (accounted ++ [.rotate 2 (some .keyring)])
    b.activeTerm = 1 ∧ b.tracked = 3 ∧ b.count = 0 := by
  decide

end VaultProofs.EncryptionCounts
