import VaultProofs.ApprovalHandlers

/-!
An approve call that meets the threshold, with reliable storage: it marks the entry, dispatches the
parked request once, and stores the response or takes mark and vote back.
-/

namespace VaultProofs.ApprovalExecution

open JsonValues EffectPrograms ApprovalEntries VaultEffects ApprovalInterceptor ApprovalHandlers

/-- The approve call of `req` passes every check on the stored entry `p`. -/
structure Admitted (core : Core) (now : Time) (store : Store) (req : Request) (id : String)
    (p : PendingRequest) (rule : ApprovalRule) : Prop where
  entry : storedPending store id = some p
  status : p.status = .pending
  live : now ≤ p.expiresAt
  ruleStored : storedRule store p.ruleID = some rule
  authorized : callerIsRoot core req = true ∨
    approvalEntityIsAuthorized core req.entityID rule.authorizedApprovers = true
  notOwn : callerIsRoot core req = true ∨ rule.allowSelfApproval = true ∨
    selfApproval req p = false
  first : hasVoted req.entityID p = false

/-- Moreover storage is reliable, the vote meets the threshold of the rule, and the execution gets
an ID. -/
structure Ready (core : Core) (env : Env) (w : World) (req : Request) (id : String)
    (p : PendingRequest) (rule : ApprovalRule) (execID : String) : Prop
    extends Admitted core env.now w.store req id p rule where
  reliable : env.Reliable
  uuid : env.uuid = .ok execID
  requestID : p.requestID = id
  unread : p.credentialData = none
  threshold : thresholdMet rule (castVote req p env.now) = true

variable {core : Core} {env : Env} {w : World} {req : Request} {id execID : String}
  {p : PendingRequest} {rule : ApprovalRule}

def executedRequest (env : Env) (req : Request) (p : PendingRequest) (execID : String) : Request :=
  reconstructedRequest (markedEntry req p env.now) execID

theorem Admitted.run_approve (h : Admitted core env.now w.store req id p rule)
    (hid : p.requestID = id) (hmet : thresholdMet rule (castVote req p env.now) = true)
    (hhealthy : ∀ n < 3, env.HealthyAt (w.storageOps + n)) :
    ∃ w', storedPending w'.store id = some (markedEntry req p env.now).normalize ∧
      w'.storageOps = w.storageOps + 3 ∧ w'.routed = w.routed ∧ w'.leases = w.leases ∧
      (handleApprovalApprove core req id).run (exec env) w =
        (finishExecution id rule (markedEntry req p env.now)).run (exec env) w' := by
  obtain ⟨value, hvalue⟩ :=
    exists_marshalJSON (r := markedEntry req p env.now) h.entry rfl (.inl rfl)
  refine ⟨w.tick.tick.put (pendingKey (markedEntry req p env.now).requestID) value,
    storedPending_put hvalue _ hid, rfl, rfl, rfl, ?_⟩
  have hlive : ¬ env.now > p.expiresAt := Int.not_lt.mpr h.live
  have hrule : storedRule w.tick.store p.ruleID = some rule := h.ruleStored
  have hauth : (!callerIsRoot core req &&
      !approvalEntityIsAuthorized core req.entityID rule.authorizedApprovers) = false := by
    rcases h.authorized with hroot | hlisted
    · simp [hroot]
    · simp [hlisted]
  have hown : (!callerIsRoot core req && !rule.allowSelfApproval && selfApproval req p) =
      false := by
    rcases h.notOwn with hroot | hallowed | hother
    · simp [hroot]
    · simp [hallowed]
    · simp [hother]
  have hrecord : (recordVote req id rule p).run (exec env) w.tick.tick =
      (finishExecution id rule (markedEntry req p env.now)).run (exec env)
        (w.tick.tick.put (pendingKey (markedEntry req p env.now).requestID) value) := by
    have hwrite := run_storePendingRequest_at (w := w.tick.tick) (hhealthy 2 (by omega)) hvalue
    simp only [recordVote, Prog.run_bind, run_timeNow, hmet, if_true, hwrite]
  have hread := run_getPendingRequest_at (hhealthy 0 (by omega)) h.entry
  have hread' := run_getApprovalRule_at (w := w.tick) (hhealthy 1 (by omega)) hrule
  rw [← hrecord]
  simp only [handleApprovalApprove, approvePending, approveUnderRule, Prog.run_bind, run_timeNow,
    hread, h.status, ne_eq, not_true_eq_false, if_false, hlive, hread', hauth, hown, h.first,
    Bool.false_eq_true]

theorem run_finishExecution {marked : PendingRequest} (hn : env.HealthyAt w.storageOps)
    (hmarked : storedPending w.store id = some marked.normalize)
    (hunread : marked.credentialData = none) :
    (finishExecution id rule marked).run (exec env) w =
      (executeOrRollBack id rule marked).run (exec env) w.tick := by
  have hlatest : ((some marked.normalize).bind PendingRequest.credentialData).isSome = false := by
    simp [hunread, storedCredential]
  simp only [finishExecution, Prog.run_bind, run_getPendingRequest_at hn hmarked, hlatest,
    Bool.false_eq_true, if_false]

theorem Ready.run_approve (h : Ready core env w req id p rule execID) :
    ∃ w', storedPending w'.store id = some (markedEntry req p env.now).normalize ∧
      w'.routed = w.routed ∧ w'.leases = w.leases ∧
      (handleApprovalApprove core req id).run (exec env) w =
        (executeOrRollBack id rule (markedEntry req p env.now)).run (exec env) w' := by
  obtain ⟨w', hmarked, -, hrouted, hleases, hrun⟩ :=
    h.toAdmitted.run_approve h.requestID h.threshold fun _ _ => h.reliable _
  rw [run_finishExecution (h.reliable _) hmarked h.unread] at hrun
  exact ⟨w'.tick, hmarked, hrouted, hleases, hrun⟩

variable {marked : PendingRequest} {reply : Reply}

theorem run_executeOrRollBack_stored (henv : env.Reliable) (huuid : env.uuid = .ok execID)
    (hreply : env.backend (reconstructedRequest marked execID) = reply) (herr : reply.err = none)
    {value : Json} (hvalue : (withCredential marked reply.resp env.now).marshalJSON = some value)
    (w : World) :
    (executeOrRollBack id rule marked).run (exec env) w =
      (voteReply id rule (withCredential marked reply.resp env.now) true,
        (w.route (reconstructedRequest marked execID) reply).put
          (pendingKey marked.requestID) value) := by
  simp only [executeOrRollBack, executeApprovedRequest, Prog.run_bind, run_generateUUID, huuid,
    run_doRouting, hreply, herr, run_timeNow, run_storePendingRequest_of_some henv hvalue,
    Prog.pure_eq_ret, Prog.run_ret]
  rfl

/-- The response cannot be encoded: the entry stays marked, as the roll-back carries the same
response. -/
theorem run_executeOrRollBack_unencodable (huuid : env.uuid = .ok execID)
    (hreply : env.backend (reconstructedRequest marked execID) = reply) (herr : reply.err = none)
    (hnone : (withCredential marked reply.resp env.now).marshalJSON = none) (w : World) :
    (executeOrRollBack id rule marked).run (exec env) w =
      (failedReply (.wrapped "approval execution failed" encodeFailed),
        w.route (reconstructedRequest marked execID) reply) := by
  have hrolled := (marshalJSON_rolledBack_eq_none_iff _).mpr hnone
  simp only [executeOrRollBack, executeApprovedRequest, Prog.run_bind, run_generateUUID, huuid,
    run_doRouting, hreply, herr, run_timeNow, run_storePendingRequest_of_none hnone,
    run_storePendingRequest_of_none hrolled, Prog.pure_eq_ret, Prog.run_ret]

theorem run_executeOrRollBack_failed {w w' : World} {e : GoError} {executed : PendingRequest}
    (hrun : (executeApprovedRequest marked).run (exec env) w = ((some e, executed), w'))
    (hn : env.HealthyAt w'.storageOps) {value : Json}
    (hvalue : (rolledBack executed).marshalJSON = some value) :
    (executeOrRollBack id rule marked).run (exec env) w =
      (failedReply (.wrapped "approval execution failed" e),
        w'.put (pendingKey executed.requestID) value) := by
  simp only [executeOrRollBack, Prog.run_bind, hrun, run_storePendingRequest_at hn hvalue,
    Prog.pure_eq_ret, Prog.run_ret]
  rfl

theorem run_executeApprovedRequest_refused (huuid : env.uuid = .ok execID)
    (hreply : env.backend (reconstructedRequest marked execID) = reply) {e : GoError}
    (herr : reply.err = some e) (w : World) :
    (executeApprovedRequest marked).run (exec env) w =
      ((some (.wrapped "approval: backend execution failed" e), marked),
        w.route (reconstructedRequest marked execID) reply) := by
  simp only [executeApprovedRequest, Prog.run_bind, run_generateUUID, huuid, run_doRouting, hreply,
    herr, Prog.pure_eq_ret, Prog.run_ret]

def sampleApprover : Request := { entityID := "alice" }

theorem ready_sample (backend : Request → Reply) :
    Ready sampleCore (Env.quiet 1 backend) (parkedWorld 1) sampleApprover "r1"
      sampleEntry.normalize (sampleRule 1) "5d2b6e0c" where
  reliable _ _ := rfl
  uuid := rfl
  entry := rfl
  requestID := rfl
  status := rfl
  live := show (1 : Int) ≤ sampleEntry.normalize.expiresAt by decide
  unread := rfl
  ruleStored := rfl
  authorized := .inr (by decide)
  notOwn := .inr (.inr (by decide))
  first := rfl
  threshold :=
    show thresholdMet (sampleRule 1) (castVote sampleApprover sampleEntry.normalize 1) = true by
      decide

end VaultProofs.ApprovalExecution
