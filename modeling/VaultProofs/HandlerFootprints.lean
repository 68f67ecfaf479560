import VaultProofs.EffectFootprints
import VaultProofs.ApprovalEffects

/-!
The footprints of deny, fetch and approve.
-/

namespace VaultProofs.HandlerFootprints

open JsonValues EffectPrograms ApprovalEntries VaultEffects ApprovalInterceptor EffectFootprints
open ApprovalHandlers ApprovalExecution ApprovalEffects

structure SameRequest (p r : PendingRequest) : Prop where
  requestID : r.requestID = p.requestID
  ruleID : r.ruleID = p.ruleID
  requesterEntityID : r.requesterEntityID = p.requesterEntityID

theorem SameRequest.refl (p : PendingRequest) : SameRequest p p := ⟨rfl, rfl, rfl⟩

theorem SameRequest.trans {p q r : PendingRequest} (h : SameRequest p q) (h' : SameRequest q r) :
    SameRequest p r :=
  ⟨h'.requestID.trans h.requestID, h'.ruleID.trans h.ruleID,
    h'.requesterEntityID.trans h.requesterEntityID⟩

/-- The entry that was read is written back with the votes it has. -/
def rewriting (store : Store) (id : String) : Footprint where
  writes r := ∃ p, storedPending store id = some p ∧ SameRequest p r ∧ r.approvals = p.approvals

variable {F : Footprint} {p : PendingRequest}

variable (core : Core) (env : Env) (req : Request) (id : String)

theorem denyPending_within (hwrites : F.writes { p with status := .denied }) :
    Within F (denyPending core req id p) := by
  unfold denyPending
  split
  · trivial
  refine Prog.performs_perform trivial fun now => ?_
  split
  · exact Prog.performs_perform trivial fun _ => trivial
  refine Prog.performs_bind (getApprovalRule_reads _).within fun found _ => ?_
  split
  · trivial
  · exact Prog.performs_perform trivial fun _ => trivial
  split
  · trivial
  refine Prog.performs_bind (storePendingRequest_within hwrites) fun stored _ => ?_
  cases stored with
  | error e => trivial
  | ok done =>
    refine Prog.performs_perform trivial fun now => ?_
    exact Prog.performs_bind (storeHistoryEntry_outside _).within fun _ _ => trivial

theorem storeHistory_within (p : PendingRequest) (status : HistoryStatus) (resolvedBy : String) :
    Within F (storeHistory core p status resolvedBy) := by
  refine Prog.performs_perform trivial fun now => ?_
  exact Prog.performs_bind (storeHistoryEntry_outside _).within fun _ _ => trivial

theorem burnCredential_within (hwrites : F.writes { p with credentialData := none }) :
    Within F (burnCredential core id p) := by
  refine Prog.performs_bind (storePendingRequest_within hwrites) fun _ _ => ?_
  refine Prog.performs_perform trivial fun deleted => ?_
  cases deleted with
  | error e => trivial
  | ok done => exact Prog.performs_bind (storeHistory_within core p _ _) fun _ _ => trivial

theorem fetchPending_within (hwrites : F.writes { p with credentialData := none }) :
    Within F (fetchPending core req id p) := by
  unfold fetchPending
  split
  · refine Prog.performs_perform trivial fun now => ?_
    split
    · refine Prog.performs_perform trivial fun _ => ?_
      exact Prog.performs_bind (storeHistory_within core p _ _) fun _ _ => trivial
    · trivial
  · trivial
  · split
    · trivial
    refine Prog.performs_perform trivial fun now => ?_
    split
    · refine Prog.performs_perform trivial fun _ => ?_
      exact Prog.performs_bind (storeHistory_within core p _ _) fun _ _ => trivial
    · exact burnCredential_within core id hwrites
  · trivial

/-- The caller passes the checks and its vote is added, kept or taken back; the request is
dispatched only under a met threshold. -/
def voting (core : Core) (now : Time) (store : Store) (req : Request) (id : String) :
    Footprint where
  writes r := ∃ p rule, Admitted core now store req id p rule ∧ SameRequest p r ∧
    (r.approvals = p.approvals ∨ r.approvals = p.approvals ++ [⟨req.entityID, now⟩])
  routes _ := ∃ p rule, Admitted core now store req id p rule ∧
    thresholdMet rule (castVote req p now) = true

theorem sameRequest_of_parked {p r : PendingRequest} (h : r.parked = p.parked) :
    SameRequest p r where
  requestID := show r.parked.requestID = p.parked.requestID by rw [h]
  ruleID := show r.parked.ruleID = p.parked.ruleID by rw [h]
  requesterEntityID := show r.parked.requesterEntityID = p.parked.requesterEntityID by rw [h]

theorem allows_of_approving {core : Core} {env : Env} {store : Store} {req : Request} {id : String}
    {op : VaultOp} (h : Approving core env store req id op) :
    (voting core env.now store req id).Allows op := by
  cases h with
  | put hadmitted hentry hvalue =>
    intro _
    exact ⟨_, hvalue, rfl, _, _, hadmitted, sameRequest_of_parked hentry.parked_eq,
      hentry.approvals_eq.symm⟩
  | route hadmitted hmet _ => exact ⟨_, _, hadmitted, hmet⟩
  | _ => trivial

theorem handleApprovalApprove_runsWithin (w : World) :
    RunsWithin env (voting core env.now w.store req id) (handleApprovalApprove core req id) w :=
  (handleApprovalApprove_approving core env req id w).mono fun _ => allows_of_approving

end VaultProofs.HandlerFootprints
