import VaultProofs.RunHistories
import VaultProofs.HandlerFootprints
import VaultProofs.ListingFootprints

/-!
Runs of the server, one atomic call after the other, with any token store, clock, backends and
failures of storage at every call.
-/

namespace VaultProofs.ApprovalRuns

open GoStrings RunHistories ApprovalEntries VaultEffects ApprovalInterceptor RequestRouting
open EffectFootprints ApprovalHandlers ApprovalExecution RuleHandlers ListingHandlers
open ApprovalEffects HandlerFootprints ListingFootprints

inductive Call where
  | ruleList
  | ruleRead (ruleID : String)
  | ruleWrite (req : Request) (ruleID : String) (fields : RuleFields)
  | ruleDelete (ruleID : String)
  | requiresApproval (path : GoString)
  | request (bypass : Bool) (auth : Option (List String)) (req : Request)
  | approve (req : Request) (id : String)
  | deny (req : Request) (id : String)
  | fetch (req : Request) (id : String)
  | pendingList (req : Request)
  | pendingRead (req : Request) (id : String)
  | approvable (req : Request)
  | myRequests (req : Request)
  | history (req : Request)

def Call.prog (core : Core) : Call → VaultProg Reply
  | .ruleList => handleApprovalRuleList
  | .ruleRead ruleID => handleApprovalRuleRead core ruleID
  | .ruleWrite req ruleID fields => handleApprovalRuleWrite core req ruleID fields
  | .ruleDelete ruleID => handleApprovalRuleDelete ruleID
  | .requiresApproval path => handleApprovalRequiresApproval path
  | .request bypass auth req => handleRequest core bypass auth req
  | .approve req id => handleApprovalApprove core req id
  | .deny req id => handleApprovalDeny core req id
  | .fetch req id => handleApprovalFetch core req id
  | .pendingList req => handleApprovalPendingList core req
  | .pendingRead req id => handleApprovalPendingRead core req id
  | .approvable req => handleApprovalApprovable core req
  | .myRequests req => handleApprovalMyRequests req
  | .history req => handleApprovalHistory core req

structure Step where
  core : Core
  env : Env
  call : Call

def Step.apply (s : Step) (w : World) : World :=
  ((s.call.prog s.core).run (exec s.env) w).2

def finalWorld (steps : List Step) : World :=
  final (fun w s => s.apply w) { store := ∅ } steps

theorem finalWorld_concat (steps : List Step) (s : Step) :
    finalWorld (steps ++ [s]) = s.apply (finalWorld steps) := final_concat steps s

def Step.footprint (s : Step) (w : World) : Footprint :=
  match s.call with
  | .request _ _ req => requesting req
  | .approve req id => voting s.core s.env.now w.store req id
  | .deny _ id => rewriting w.store id
  | .fetch _ id => rewriting w.store id
  | _ => {}

/-- A call stays within a footprint that admits what requests, votes, denials and
retrievals may do. -/
theorem Step.runs_of_admitted {s : Step} {w : World} {F : Footprint}
    (hrequest : ∀ bypass auth req, s.call = .request bypass auth req →
      (∀ req, F.routes req) ∧ F.leases ∧
        ∀ rule id, s.env.uuid = .ok id → F.writes (parkedRequest req rule id s.env.now))
    (happrove : ∀ req id op, s.call = .approve req id → Approving s.core s.env w.store req id op →
      F.Allows op)
    (hrewrite : ∀ req id p, storedPending w.store id = some p →
      (s.call = .deny req id → F.writes { p with status := .denied }) ∧
        (s.call = .fetch req id → F.writes { p with credentialData := none })) :
    RunsWithin s.env F (s.call.prog s.core) w := by
  cases hcall : s.call with
  | ruleList => exact handleApprovalRuleList_reads.within.runs
  | ruleRead ruleID => exact (handleApprovalRuleRead_reads s.core ruleID).within.runs
  | ruleWrite req ruleID fields =>
    exact (handleApprovalRuleWrite_outside s.core req ruleID fields).within.runs
  | ruleDelete ruleID => exact (handleApprovalRuleDelete_within ruleID).runs
  | requiresApproval path => exact (handleApprovalRequiresApproval_reads path).within.runs
  | request bypass auth req =>
    obtain ⟨hroutes, hleases, hwrites⟩ := hrequest bypass auth req hcall
    exact handleRequest_runsWithin s.core hroutes hleases hwrites bypass auth w
  | approve req id =>
    exact (handleApprovalApprove_approving s.core s.env req id w).mono
      fun op => happrove req id op hcall
  | deny req id =>
    refine runPerforms_getPendingRequest trivial fun found hfound => ?_
    split
    · trivial
    · trivial
    · rename_i p
      exact (denyPending_within s.core req id ((hrewrite req id p (hfound p rfl)).1 hcall)).runs
  | fetch req id =>
    refine runPerforms_getPendingRequest trivial fun found hfound => ?_
    split
    · trivial
    · trivial
    rename_i p
    split
    · exact (fetchPending_within s.core req id ((hrewrite req id p (hfound p rfl)).2 hcall)).runs
    · trivial
  | pendingList req => exact (handleApprovalPendingList_reads s.core req).within.runs
  | pendingRead req id => exact (handleApprovalPendingRead_within s.core req id).runs
  | approvable req => exact (handleApprovalApprovable_within s.core req).runs
  | myRequests req => exact (handleApprovalMyRequests_within req).runs
  | history req => exact (handleApprovalHistory_outside s.core req).within.runs

theorem Step.runsWithin (s : Step) (w : World) :
    RunsWithin s.env (s.footprint w) (s.call.prog s.core) w := by
  refine Step.runs_of_admitted ?_ ?_ ?_
  · intro bypass auth req hcall
    rw [Step.footprint, hcall]
    exact ⟨fun _ => trivial, trivial, fun rule id _ => ⟨req.data, rule, id, _, rfl⟩⟩
  · intro req id op hcall
    rw [Step.footprint, hcall]
    exact allows_of_approving
  intro req id p hp
  have hrewrite : ∀ {r}, SameRequest p r → r.approvals = p.approvals →
      (rewriting w.store id).writes r :=
    fun hsame hvotes => ⟨p, hp, hsame, hvotes⟩
  constructor
  · intro hcall
    rw [Step.footprint, hcall]
    exact hrewrite ⟨rfl, rfl, rfl⟩ rfl
  · intro hcall
    rw [Step.footprint, hcall]
    exact hrewrite ⟨rfl, rfl, rfl⟩ rfl

def Keyed (store : Store) : Prop :=
  ∀ id p, storedPending store id = some p → p.requestID = id

variable {w : World}

theorem keyed_apply (s : Step) (hw : Keyed w.store) : Keyed (s.apply w).store := by
  intro id q hq
  rcases run_outcome (s.runsWithin w) id with hsame | hgone | ⟨r, -, hid, hr⟩
  · exact hw id q (hsame.symm.trans hq)
  · rw [Step.apply, hgone] at hq
    cases hq
  · rw [Step.apply, hr] at hq
    cases hq
    exact hid

theorem keyed_finalWorld (steps : List Step) : Keyed (finalWorld steps).store := by
  refine final_induction (K := fun _ (w : World) => Keyed w.store) ?_ ?_ steps
  · intro id p hp
    cases hp
  · intro steps s ih
    exact keyed_apply s ih

/-- How the entry that a step leaves came about: with the votes it had, just parked, or with the
vote of the caller added. -/
inductive VoteChange (s : Step) (w : World) (id : String) (q : PendingRequest) : Prop where
  | kept {p : PendingRequest} (entry : storedPending w.store id = some p)
      (same : SameRequest p q) (votes : q.approvals = p.approvals)
  | parked (votes : q.approvals = [])
  | voted {req : Request} {p : PendingRequest} {rule : ApprovalRule}
      (call : s.call = .approve req id)
      (admitted : Admitted s.core s.env.now w.store req id p rule) (same : SameRequest p q)
      (votes : q.approvals = p.approvals ++ [⟨req.entityID, s.env.now⟩])

theorem voteChange_of_writes {s : Step} (hw : Keyed w.store) {id : String} {r : PendingRequest}
    (hr : (s.footprint w).writes r) (hid : r.requestID = id) :
    VoteChange s w id r.normalize := by
  obtain ⟨core, env, call⟩ := s
  have hrewrite : ∀ {id' : String}, (rewriting w.store id').writes r →
      VoteChange ⟨core, env, call⟩ w id r.normalize := by
    rintro id' ⟨p, hp, hsame, hvotes⟩
    obtain rfl : id' = id := by
      rw [← hid, hsame.requestID, hw id' p hp]
    exact .kept hp ⟨hsame.requestID, hsame.ruleID, hsame.requesterEntityID⟩ hvotes
  cases call with
  | request bypass auth req =>
    obtain ⟨data, rule, id', now, rfl⟩ := hr
    exact .parked rfl
  | approve req id' =>
    obtain ⟨p, rule, hadmitted, hsame, hvotes⟩ := hr
    obtain rfl : id' = id := by
      rw [← hid, hsame.requestID, hw id' p hadmitted.entry]
    have hsame' : SameRequest p r.normalize :=
      ⟨hsame.requestID, hsame.ruleID, hsame.requesterEntityID⟩
    rcases hvotes with hvotes | hvotes
    · exact .kept hadmitted.entry hsame' hvotes
    · exact .voted rfl hadmitted hsame' hvotes
  | deny req id' | fetch req id' => exact hrewrite hr
  | _ => exact hr.elim

theorem voteChange (s : Step) (hw : Keyed w.store) {id : String} {q : PendingRequest}
    (hq : storedPending (s.apply w).store id = some q) : VoteChange s w id q := by
  rcases run_outcome (s.runsWithin w) id with hsame | hgone | ⟨r, hwrites, hid, hr⟩
  · exact .kept (hsame.symm.trans hq) (SameRequest.refl q) rfl
  · rw [Step.apply, hgone] at hq
    cases hq
  · rw [Step.apply, hr] at hq
    cases hq
    exact voteChange_of_writes hw hwrites hid

def sampleRun (approvalsRequired : Int) (callers : List Request) : List Step :=
  [⟨sampleCore, sampleEnv, .ruleWrite { clientToken := "root" } "db"
      { targetMountPath := some (ofString "database/creds/*")
        authorizedApprovers := some [ofString "alice", ofString "bob"]
        approvalsRequired := some approvalsRequired }⟩,
   ⟨sampleCore, sampleEnv, .request false (some ["default"]) sampleRequest⟩] ++
    callers.map fun req => ⟨sampleCore, sampleEnv, .approve req "5d2b6e0c"⟩

/-! The steps of a run in which one approval is enough. -/

def ruleStep : Step :=
  ⟨sampleCore, sampleEnv, .ruleWrite { clientToken := "root" } "db"
    { targetMountPath := some (ofString "database/creds/*")
      authorizedApprovers := some [ofString "alice", ofString "bob"]
      approvalsRequired := some 1 }⟩

def requestStep (req : Request) : Step :=
  ⟨sampleCore, sampleEnv, .request false (some ["default"]) req⟩

def approveStep : Step :=
  ⟨sampleCore, sampleEnv, .approve sampleApprover "5d2b6e0c"⟩

def fetchStep : Step :=
  ⟨sampleCore, sampleEnv, .fetch sampleRequest "5d2b6e0c"⟩

end VaultProofs.ApprovalRuns
