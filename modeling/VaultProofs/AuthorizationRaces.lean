import VaultProofs.AcmeRaces
import VaultProofs.ChallengeQueue

/-!
Acceptances and validations of the challenges of one ACME authorization, and its deactivation.
Each of them loads the whole authorization, works on it and saves it.
-/

namespace VaultProofs.AuthorizationRaces

open RunHistories RacingCalls AcmeRaces ChallengeQueue

inductive ChallengeStatus where
  | pending | processing | valid | invalid
  deriving DecidableEq

structure Challenge where
  type : Nat
  status : ChallengeStatus
  deriving DecidableEq

/-- There is at most one challenge of each type. -/
structure Authorization where
  status : AuthorizationStatus
  challenges : List Challenge
  deriving DecidableEq

def Authorization.update (authz : Authorization) (status : AuthorizationStatus) (type : Nat)
    (challengeStatus : ChallengeStatus) : Authorization where
  status := status
  challenges := authz.challenges.map fun challenge =>
    if challenge.type = type then ⟨type, challengeStatus⟩ else challenge

def Authorization.live (authz : Authorization) : Bool :=
  authz.status = .pending ∨ authz.status = .valid

structure Store where
  authz : Authorization
  validations : Nat → Option ChallengeValidation

/-- The next step of a call, or its answer. A call saves what it has made of what it loaded. -/
inductive Call where
  | loadToAccept (type : Nat)
  | getEntry (type : Nat) (authz : Authorization)
  | putEntry (type : Nat) (authz : Authorization)
  | loadEntry (type : Nat)
  | loadToVerify (type : Nat) (cv : ChallengeValidation)
  | putRetry (type : Nat) (cv : ChallengeValidation)
  | cleanup (type : Nat)
  | loadToDeactivate
  | save (loaded authz : Authorization) (next : Call)
  | accepted
  | verified
  | deactivated
  | refused
  deriving DecidableEq

structure Reading where
  now : Nat
  /-- The challenge cannot be used for the identifier. -/
  rejected : Bool
  valid : Bool

def next (reading : Reading) (call : Call) (s : Store) : Call × Store :=
  let put type cv := { s with validations := Function.update s.validations type cv }
  match call with
  | .loadToAccept type =>
    (if s.authz.challenges.any (·.type = type) then .getEntry type s.authz else .refused, s)
  | .getEntry type authz =>
    if (s.validations type).isSome then (.accepted, s)
    else if authz.status = .pending ∧ ∀ challenge ∈ authz.challenges, challenge.status = .pending ∨
        challenge.type = type ∧ challenge.status = .processing then (.putEntry type authz, s)
    else (.refused, s)
  | .putEntry type authz =>
    (if ⟨type, .pending⟩ ∈ authz.challenges then
      .save authz (authz.update authz.status type .processing) .accepted
    else .accepted, put type (some ⟨0, none⟩))
  | .loadEntry type =>
    match s.validations type with
    | none => (.cleanup type, s)
    | some cv =>
      (if cv.retryAfter.any (reading.now < ·) then .verified else .loadToVerify type cv, s)
  | .loadToVerify type cv =>
    let save status challengeStatus :=
      Call.save s.authz (s.authz.update status type challengeStatus)
    if s.authz.status ≠ .pending ∨ reading.rejected ∨ (⟨type, .pending⟩ ∉ s.authz.challenges ∧
        ⟨type, .processing⟩ ∉ s.authz.challenges) then (.cleanup type, s)
    else if reading.valid then (save .valid .valid (.cleanup type), s)
    else if cv.retryCount > maxRetryAttempts then (save .invalid .invalid (.cleanup type), s)
    else (.save s.authz s.authz (.putRetry type cv), s)
  | .putRetry type cv =>
    let retryCount := cv.retryCount + 1
    (.verified, put type (some ⟨retryCount, some (reading.now + retryCount * 5)⟩))
  | .cleanup type => (.verified, put type none)
  | .loadToDeactivate =>
    if s.authz.live then
      let challenges := s.authz.challenges.map fun challenge => { challenge with status := .invalid }
      (.save s.authz ⟨.deactivated, challenges⟩ .deactivated, s)
    else (.refused, s)
  | .save _ authz next => (next, { s with authz })
  | call => (call, s)

def Call.starts : Call → Bool
  | .loadToAccept _ => true
  | .loadEntry _ => true
  | .loadToDeactivate => true
  | _ => false

def Call.loaded : Call → Option Authorization
  | .save loaded _ _ => some loaded
  | _ => none

/-- An authorization is saved while it has the status with which it was loaded. -/
def SavesFresh (s : Race Store Call) (e : Nat × Reading) : Prop :=
  ∀ call ∈ s.calls[e.1]?, ∀ loaded ∈ call.loaded, s.store.authz.status = loaded.status

instance (s : Race Store Call) (e : Nat × Reading) : Decidable (SavesFresh s e) :=
  inferInstanceAs (Decidable (∀ _ ∈ _, _))

/-- What is about to be saved was loaded as pending or valid. -/
def Call.Fits : Call → Prop
  | .putEntry _ authz => authz.status = .pending
  | .save loaded authz next =>
    loaded.live = true ∧ (next = .deactivated → authz.live = false) ∧ next.Fits
  | _ => True

structure Kept (finished : Prop) (s : Race Store Call) : Prop where
  fits : ∀ call ∈ s.calls, call.Fits
  finished : finished ∨ .deactivated ∈ s.calls → s.store.authz.live = false

variable {s : Race Store Call} {finished : Prop}

theorem Kept.step (h : Kept finished s) {e : Nat × Reading} (hfresh : SavesFresh s e) :
    Kept finished (turn next s e) := by
  refine turn_keeps (fun call hcall => ?_) h
  have hfits := h.fits call (List.mem_of_getElem? hcall)
  have hfresh := hfresh call hcall
  have hfinished := h.finished
  constructor
  · intro call' hcall'
    rcases List.mem_or_eq_of_mem_set hcall' with hcall' | rfl
    · exact h.fits call' hcall'
    · cases call <;> grind [next, Call.Fits, Authorization.live]
  · intro hnow
    have hold := hnow.imp_right List.mem_or_eq_of_mem_set
    cases call <;> grind [next, Call.Fits, Call.loaded, Authorization.live]

theorem authorizationsStatus_ne_ready {authorizations : Nat → AuthorizationStatus} {ids : List Nat}
    {id : Nat} (hid : id ∈ ids) (h : authorizations id ≠ .valid) :
    authorizationsStatus authorizations ids ≠ .ready := by
  induction ids with
  | nil => simp at hid
  | cons first ids ih => grind [authorizationsStatus]

/-- Once an authorization is deactivated or invalid it is never again pending or valid, and no
pending order becomes ready with it, if it is saved only with the status it was loaded with. -/
theorem finished_authorization_stays {history later : List (Nat × Reading)}
    (hs : ∀ call ∈ s.calls, call.starts) (hrun : Orderly (turn next) SavesFresh s history)
    (hlater : Orderly (turn next) SavesFresh (final (turn next) s history) later)
    (hfinished : .deactivated ∈ (final (turn next) s history).calls ∨
      (final (turn next) s history).store.authz.status = .invalid) :
    let status := (final (turn next) s (history ++ later)).store.authz.status
    (status ≠ .pending ∧ status ≠ .valid) ∧
      ∀ now authorizations (order : Order), ∀ id ∈ order.authorizationIds,
        authorizations id = status → order.status = .pending →
          computeOrderStatus now authorizations order ≠ .ready := by
  have hstart : Kept False s := by
    constructor
    · intro call hcall
      have := hs call hcall
      cases call <;> grind [Call.starts, Call.Fits]
    · rintro (hfalse | hmem)
      · exact hfalse.elim
      · exact absurd (hs _ hmem) (by decide)
  have hkept := hrun.keeps (fun _ _ h => h.step) hstart
  have hend : Kept True (final (turn next) s history) := by
    refine ⟨hkept.fits, fun _ => ?_⟩
    rcases hfinished with hmem | hinvalid
    · exact hkept.finished (.inr hmem)
    · simp [Authorization.live, hinvalid]
  have hlive := (hlater.keeps (fun _ _ h => h.step) hend).finished (.inl trivial)
  simp only [final, List.foldl_append] at hlive ⊢
  simp only [Authorization.live, decide_eq_false_iff_not, not_or] at hlive
  refine ⟨hlive, fun now authorizations order id hid hstatus horder => ?_⟩
  have hready := authorizationsStatus_ne_ready hid (hstatus ▸ hlive.2)
  grind [computeOrderStatus]

def acceptAndDeactivate : Race Store Call :=
  ⟨⟨⟨.pending, [⟨0, .pending⟩]⟩, fun _ => none⟩, [.loadToAccept 0, .loadToDeactivate]⟩

def inTurn (calls : List Nat) : List (Nat × Reading) :=
  calls.map (·, ⟨0, false, false⟩)

theorem late_acceptance_refused :
    (final (turn next) acceptAndDeactivate (inTurn [1, 1] ++ inTurn [0, 0])).store.authz.status ≠
      .pending :=
  (finished_authorization_stays (by decide) (by decide) (by decide) (.inl (by decide))).1.1

/-- The acceptance has loaded the authorization before it is deactivated, and saves it after. -/
example : .deactivated ∈ (final (turn next) acceptAndDeactivate (inTurn [0, 0, 0, 1, 1])).calls ∧
    (final (turn next) acceptAndDeactivate (inTurn [0, 0, 0, 1, 1, 0])).store.authz.status =
      .pending := by
  decide

end VaultProofs.AuthorizationRaces
