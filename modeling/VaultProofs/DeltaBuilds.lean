import Mathlib.Data.List.Nodup
import VaultProofs.RunHistories

/-!
Tidies of the revocation store between revocations and builds, with automatic rebuilds and delta
CRLs on. A delta build looks up the revocation entry of every serial in its WAL; a tidy removes
entries by their age and leaves the WAL alone.
-/

namespace VaultProofs.DeltaBuilds

open RunHistories

abbrev Serial := Nat

structure RevocationInfo where
  serial : Serial
  notAfter : Int
  deriving DecidableEq

structure Store where
  revoked : List RevocationInfo := []
  deltaWAL : List Serial := []
  complete : List Serial := []
  delta : List Serial := []
  deriving DecidableEq

structure TidyConfig where
  revokedCerts : Bool
  safetyBuffer : Int

def serials (revoked : List RevocationInfo) : List Serial :=
  revoked.map (·.serial)

-- The loop ends at the first serial that has no entry.
def getLocalRevokedCertEntries (s : Store) (isDelta : Bool) : Except String (List Serial) :=
  let revokedSerials := if isDelta then s.deltaWAL else serials s.revoked
  match revokedSerials.find? (· ∉ serials s.revoked) with
  | some serial => .error s!"revoked certificate entry for serial {serial} is nil"
  | none => .ok revokedSerials

-- A complete build clears the WAL, and then there is nothing for the delta CRL.
def buildAnyCRLs (s : Store) (isDelta : Bool) : Except String Store := do
  let crl ← getLocalRevokedCertEntries s isDelta
  return if isDelta then { s with delta := crl }
    else { s with complete := crl, deltaWAL := [], delta := [] }

def revokeCert (s : Store) (cert : RevocationInfo) (now : Int) : Store :=
  if cert.serial ∈ serials s.revoked ∨ cert.notAfter < now + 2 then s
  else { s with revoked := cert :: s.revoked, deltaWAL := s.deltaWAL.insert cert.serial }

def Expired (config : TidyConfig) (now : Int) (cert : RevocationInfo) : Prop :=
  config.revokedCerts = true ∧ now - cert.notAfter > config.safetyBuffer

instance (config : TidyConfig) (now : Int) (cert : RevocationInfo) :
    Decidable (Expired config now cert) :=
  inferInstanceAs (Decidable (_ ∧ _))

def doTidyRevocationStore (config : TidyConfig) (now : Int) (s : Store) : Store :=
  { s with revoked := s.revoked.filter (¬ Expired config now ·) }

inductive Action where
  | revoke (cert : RevocationInfo) (now : Int)
  | build (isDelta : Bool)
  | tidy (config : TidyConfig) (now : Int)

def step (s : Store) : Action → Store
  | .revoke cert now => revokeCert s cert now
  | .build isDelta => (buildAnyCRLs s isDelta).toOption.getD s
  | .tidy config now => doTidyRevocationStore config now s

/-- The delta build puts all the serials of the WAL on the delta CRL. -/
def Builds (s : Store) : Prop :=
  buildAnyCRLs s true = .ok { s with delta := s.deltaWAL }

variable {s : Store}

theorem builds_iff : Builds s ↔ s.deltaWAL ⊆ serials s.revoked := by
  rw [Builds, buildAnyCRLs, getLocalRevokedCertEntries, if_pos rfl]
  cases hmissing : s.deltaWAL.find? (· ∉ serials s.revoked) with
  | none =>
    simp only [List.find?_eq_none, decide_eq_true_eq, not_not] at hmissing
    exact iff_of_true rfl hmissing
  | some serial =>
    have hserial := List.find?_some hmissing
    have hmem := List.mem_of_find?_eq_some hmissing
    simp only [bind, Except.bind, reduceCtorEq, false_iff]
    exact fun hsub => of_decide_eq_true hserial (hsub hmem)

theorem nodup_step (h : (serials s.revoked).Nodup) (action : Action) :
    (serials (step s action).revoked).Nodup := by
  cases action with
  | revoke cert now =>
    rw [step, revokeCert]
    split
    · exact h
    · rename_i hnew
      exact List.nodup_cons.mpr ⟨fun hmem => hnew (.inl hmem), h⟩
  | build isDelta =>
    rw [step, buildAnyCRLs]
    cases getLocalRevokedCertEntries s isDelta with
    | error text => exact h
    | ok crl => cases isDelta <;> exact h
  | tidy config now => exact h.sublist (List.filter_sublist.map _)

/-- A delta build still succeeds after a tidy exactly if no serial in the WAL is of a certificate
that has expired before the safety buffer. -/
theorem builds_after_tidy_iff (history : List Action) (config : TidyConfig) (now : Int)
    (hbuilds : Builds (final step {} history)) :
    Builds (doTidyRevocationStore config now (final step {} history)) ↔
      ∀ cert ∈ (final step {} history).revoked,
        cert.serial ∈ (final step {} history).deltaWAL → ¬ Expired config now cert := by
  have hnodup : (serials (final step {} history).revoked).Nodup := by
    refine final_induction (K := fun _ (s : Store) => (serials s.revoked).Nodup) ?_ ?_ history
    · exact .nil
    · exact fun _ action h => nodup_step h action
  generalize final step {} history = s at hbuilds hnodup ⊢
  rw [builds_iff] at hbuilds ⊢
  constructor
  · intro hleft cert hcert hwal hexpired
    obtain ⟨kept, hkept, hserial⟩ := List.mem_map.mp (hleft hwal)
    have hkept := List.mem_filter.mp hkept
    rw [List.inj_on_of_nodup_map hnodup hkept.1 hcert hserial] at hkept
    exact of_decide_eq_true hkept.2 hexpired
  · intro hkept serial hwal
    obtain ⟨cert, hcert, rfl⟩ := List.mem_map.mp (hbuilds hwal)
    exact List.mem_map_of_mem (List.mem_filter.mpr ⟨hcert, decide_eq_true (hkept cert hcert hwal)⟩)

theorem builds_after_early_tidy :
    Builds (doTidyRevocationStore ⟨true, 5⟩ 12 (final step {} [.revoke ⟨1, 10⟩ 0])) :=
  (builds_after_tidy_iff [.revoke ⟨1, 10⟩ 0] ⟨true, 5⟩ 12 rfl).mpr (by decide)

/-- The entry of a serial in the WAL is tidied up, and a later revocation is not published. -/
theorem tidy_blocks_delta_builds :
    let s := final step {} [.revoke ⟨1, 10⟩ 0]
    Builds s ∧ buildAnyCRLs (final step s [.tidy ⟨true, 5⟩ 20, .revoke ⟨2, 99⟩ 21]) true =
      .error "revoked certificate entry for serial 1 is nil" :=
  ⟨rfl, rfl⟩

end VaultProofs.DeltaBuilds
