import VaultProofs.HandlerFootprints
import VaultProofs.HandlerProtocols

/-!
Leases of the direct path and of the approved one.
-/

namespace VaultProofs.LeaseParity

open GoStrings EffectPrograms ApprovalEntries VaultEffects ApprovalInterceptor RequestRouting
open EffectFootprints ApprovalHandlers ApprovalExecution HandlerFootprints HandlerProtocols

def Registers (before after : World) : Prop :=
  before.leases.length < after.leases.length

instance (before after : World) : Decidable (Registers before after) :=
  inferInstanceAs (Decidable (_ < _))

def Accepted (core : Core) (env : Env) (req : Request) (resp : Response) (secret : Secret) : Prop :=
  ∃ registerReq sysView ttl capped leaseID,
    core.materializeToken req = .ok registerReq ∧
    core.matchingSystemView req.path = some sysView ∧
    calculateTTL sysView 0 secret.ttl 0 secret.maxTTL 0 0 env.now = .ok (ttl, capped) ∧
    env.register registerReq (withTTL core resp secret ttl capped) = .ok leaseID

/-- The response of the backend carries a secret that needs a lease. -/
structure Leasable (core : Core) (env : Env) (req : Request) (resp : Response)
    (secret : Secret) : Prop where
  response : (env.backend req).resp = some resp
  carries : resp.secret = some secret
  notRenewal : isRenewPath req.path = false
  leasedMount : leaseDecision core req = .register
  notSnapshot : isSnapshotReadOrList req = false
  accepted : Accepted core env req resp secret

variable {core : Core} {env : Env} {req : Request} {w : World}

theorem not_registers_self (w : World) : ¬ Registers w w := Nat.lt_irrefl _

theorem registers_registerSecret_iff (resp : Response) (secret : Secret)
    (routeErr : Option GoError) :
    Registers w ((registerSecret core req resp secret routeErr).run (exec env) w).2 ↔
      isSnapshotReadOrList req = false ∧ Accepted core env req resp secret := by
  unfold registerSecret Accepted
  cases htoken : core.materializeToken req with
  | error e => simp [Registers]
  | ok registerReq =>
    cases hsnapshot : isSnapshotReadOrList req with
    | true => simp [Registers]
    | false =>
      cases hview : core.matchingSystemView req.path with
      | none => simp [Registers]
      | some sysView =>
        simp only [Bool.false_eq_true, if_false, Prog.run_bind, run_timeNow]
        cases httl : calculateTTL sysView 0 secret.ttl 0 secret.maxTTL 0 0 env.now with
        | error e => simp [Registers, httl]
        | ok result =>
          obtain ⟨ttl, capped⟩ := result
          have hrun : (registerLease registerReq
              (withTTL core resp secret ttl capped)).run (exec env) w =
              exec env (.registerLease registerReq
                (withTTL core resp secret ttl capped)) w := rfl
          simp only [Prog.run_bind, hrun, exec]
          cases hlease : env.register registerReq (withTTL core resp secret ttl capped) with
          | error e =>
            refine iff_of_false (by simp [Registers]) ?_
            rintro ⟨-, _, _, _, _, _, ⟨⟩, ⟨⟩, httl', hlease'⟩
            cases httl.symm.trans httl'
            rw [hlease] at hlease'
            cases hlease'
          | ok leaseID =>
            refine iff_of_true (by simp [Registers]) ⟨trivial, ?_⟩
            exact ⟨registerReq, sysView, ttl, capped, leaseID, rfl, rfl, httl, hlease⟩

theorem registers_settleResponse_iff :
    Registers w ((settleResponse core req (env.backend req)).run (exec env) w).2 ↔
      ∃ resp secret, Leasable core env req resp secret := by
  unfold settleResponse
  cases hresp : (env.backend req).resp with
  | none =>
    refine iff_of_false (not_registers_self w) ?_
    rintro ⟨resp, secret, h⟩
    rw [h.response] at hresp
    cases hresp
  | some resp =>
    simp only
    cases hsecret : resp.secret with
    | none =>
      refine iff_of_false (not_registers_self w) ?_
      rintro ⟨resp', secret, h⟩
      obtain rfl := Option.some.inj (hresp.symm.trans h.response)
      rw [h.carries] at hsecret
      cases hsecret
    | some secret =>
      cases hrenew : isRenewPath req.path with
      | true =>
        refine iff_of_false (not_registers_self w) ?_
        rintro ⟨resp', secret', h⟩
        rw [h.notRenewal] at hrenew
        cases hrenew
      | false =>
        cases hlease : leaseDecision core req with
        | fault | skip =>
          refine iff_of_false (not_registers_self w) ?_
          rintro ⟨resp', secret', h⟩
          rw [h.leasedMount] at hlease
          cases hlease
        | register =>
          refine (registers_registerSecret_iff resp secret _).trans ⟨?_, ?_⟩
          · rintro ⟨hsnapshot, haccepted⟩
            exact ⟨resp, secret, hresp, hsecret, hrenew, hlease, hsnapshot, haccepted⟩
          rintro ⟨resp', secret', h⟩
          obtain rfl := Option.some.inj (hresp.symm.trans h.response)
          obtain rfl := Option.some.inj (hsecret.symm.trans h.carries)
          exact ⟨h.notSnapshot, h.accepted⟩

def LetThrough (core : Core) (env : Env) (bypass : Bool) (auth : Option (List String))
    (req : Request) (w : World) : Prop :=
  bypass = true ∨
    ¬ Interception.Stops ((checkNeedsApproval core req auth).run (exec env) w).1

theorem registers_routeRequest_iff {w' : World} (hleases : w'.leases = w.leases) :
    Registers w ((routeRequest core req).run (exec env) w').2 ↔
      ∃ resp secret, Leasable core env req resp secret := by
  have hrouted : (routeRequest core req).run (exec env) w' =
      (settleResponse core req (env.backend req)).run (exec env)
        (w'.route req (env.backend req)) := rfl
  have hbase : Registers w = Registers (w'.route req (env.backend req)) := by
    funext after
    simp only [Registers, World.route, hleases]
  rw [hrouted, hbase]
  exact registers_settleResponse_iff

theorem registers_handleRequest_iff {bypass : Bool} {auth : Option (List String)}
    (hop : req.operation ≠ .recover) (hdirect : LetThrough core env bypass auth req w) :
    Registers w ((handleRequest core bypass auth req).run (exec env) w).2 ↔
      ∃ resp secret, Leasable core env req resp secret := by
  simp only [handleRequest, hop, if_false, interceptOrRoute]
  cases bypass with
  | true => exact registers_routeRequest_iff rfl
  | false =>
    have hfree :
        ¬ Interception.Stops ((checkNeedsApproval core req auth).run (exec env) w).1 := by
      rcases hdirect with h | h
      · cases h
      · exact h
    have hcheck : RunsWithin env (parking req) (checkNeedsApproval core req auth) w :=
      checkNeedsApproval_parks core req auth
    unfold Interception.Stops at hfree
    simp only [Bool.false_eq_true, if_false, Prog.run_bind, hfree]
    exact registers_routeRequest_iff (run_leases hcheck fun h => h)

/-- One way through the workflow: the request is parked, approve calls follow, and
the requester fetches. -/
structure Workflow where
  auth : Option (List String)
  parkEnv : Env
  id : String
  approvals : List (Request × Env)
  fetcher : Request
  fetchEnv : Env

def Workflow.executed (flow : Workflow) (core : Core) (req : Request) (w : World) : World :=
  flow.approvals.foldl
    (fun w call => ((handleApprovalApprove core call.1 flow.id).run (exec call.2) w).2)
    ((checkNeedsApproval core req flow.auth).run (exec flow.parkEnv) w).2

def Workflow.fetched (flow : Workflow) (core : Core) (req : Request) (w : World) : Reply :=
  ((handleApprovalFetch core flow.fetcher flow.id).run (exec flow.fetchEnv)
    (flow.executed core req w)).1

theorem leases_approvals (core : Core) (id : String) (approvals : List (Request × Env))
    (w : World) :
    (approvals.foldl
      (fun w call => ((handleApprovalApprove core call.1 id).run (exec call.2) w).2) w).leases =
      w.leases := by
  induction approvals generalizing w with
  | nil => rfl
  | cons call rest ih =>
    have happrove := handleApprovalApprove_runsWithin core call.2 call.1 id w
    exact (ih _).trans (run_leases happrove fun h => h)

theorem leases_executed (flow : Workflow) (core : Core) (req : Request) (w : World) :
    (flow.executed core req w).leases = w.leases := by
  have hcheck : RunsWithin flow.parkEnv (parking req) (checkNeedsApproval core req flow.auth) w :=
    checkNeedsApproval_parks core req flow.auth
  exact (leases_approvals core flow.id flow.approvals _).trans (run_leases hcheck fun h => h)

/-- If the direct path registers a lease, a workflow that hands out the credential has registered
one before. -/
def SameLeases (core : Core) (env : Env) (bypass : Bool) (auth : Option (List String))
    (req : Request) (flow : Workflow) (w : World) : Prop :=
  Registers w ((handleRequest core bypass auth req).run (exec env) w).2 →
    DeliversCredential flow.id (flow.fetched core req w) →
    Registers w (flow.executed core req w)

/-- For a workflow that hands out the credential, the leases agree iff there is none to register. -/
theorem sameLeases_iff (core : Core) (env : Env) (bypass : Bool) (auth : Option (List String))
    (req : Request) (flow : Workflow) (w : World) (hop : req.operation ≠ .recover)
    (hdirect : LetThrough core env bypass auth req w)
    (hdelivers : DeliversCredential flow.id (flow.fetched core req w)) :
    SameLeases core env bypass auth req flow w ↔
      ¬ ∃ resp secret, Leasable core env req resp secret := by
  have hnone : ¬ Registers w (flow.executed core req w) := by
    unfold Registers
    rw [leases_executed]
    exact Nat.lt_irrefl _
  have hleasable := registers_handleRequest_iff hop hdirect
  constructor
  · intro hsame hsecret
    exact hnone (hsame (hleasable.mpr hsecret) hdelivers)
  · intro hsecret hregisters _
    exact (hsecret (hleasable.mp hregisters)).elim

def databaseBackend (_ : Request) : Reply where
  resp := some
    { data := [(ofString "password", textValue "s3cr3t")]
      secret := some { ttl := hour, maxTTL := 24 * hour, renewable := true } }

def sampleFlow (backend : Request → Reply) : Workflow where
  auth := some ["default"]
  parkEnv := Env.quiet 0 backend
  id := "5d2b6e0c"
  approvals := [(sampleApprover, Env.quiet 1 backend)]
  fetcher := sampleRequest
  fetchEnv := Env.quiet 2 backend

def sampleExecuted (backend : Request → Reply) : PendingRequest :=
  (withCredential (markedEntry sampleApprover
    (parkedRequest sampleRequest (sampleRule 1) "5d2b6e0c" 0).normalize 1)
    (backend sampleRequest).resp 1).normalize

/-- The direct path ends with a lease; the workflow hands out the credential
without one. -/
theorem not_sameLeases_databaseBackend :
    ¬ SameLeases sampleCore (Env.quiet 1 databaseBackend) false (some ["root"]) sampleRequest
      (sampleFlow databaseBackend) ruleWorld := by
  intro hsame
  have hdirect : Registers ruleWorld ((handleRequest sampleCore false (some ["root"])
      sampleRequest).run (exec (Env.quiet 1 databaseBackend)) ruleWorld).2 := by decide
  have hregisters := hsame hdirect ⟨sampleExecuted databaseBackend, rfl, rfl⟩
  revert hregisters
  decide

theorem sameLeases_sampleBackend :
    SameLeases sampleCore (Env.quiet 1 sampleBackend) false (some ["root"]) sampleRequest
      (sampleFlow sampleBackend) ruleWorld := by
  refine (sameLeases_iff sampleCore (Env.quiet 1 sampleBackend) false (some ["root"])
    sampleRequest (sampleFlow sampleBackend) ruleWorld (by decide) (.inr (by decide))
    ⟨sampleExecuted sampleBackend, rfl, rfl⟩).mpr ?_
  rintro ⟨resp, secret, h⟩
  have hresp := h.response
  have hsecret := h.carries
  cases hresp
  cases hsecret

end VaultProofs.LeaseParity
