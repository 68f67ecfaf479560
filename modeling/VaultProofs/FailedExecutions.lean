import VaultProofs.ApprovalExecution

/-!
Executions that the backend reports as failed, by a Go error or by an error response; the executor
looks at the first only.
-/

namespace VaultProofs.FailedExecutions

open GoStrings ApprovalEntries VaultEffects ApprovalInterceptor ApprovalHandlers ApprovalExecution

def LogicalError (reply : Reply) : Prop :=
  reply.err = none ∧ ∃ resp, reply.resp = some resp ∧ resp.isError = true

def Failed (reply : Reply) : Prop :=
  reply.err.isSome = true ∨ ∃ resp, reply.resp = some resp ∧ resp.isError = true

/-- If the backend reports a failure, so does the approve call, and the entry stays pending without
a credential. -/
def FailureNotRecorded (core : Core) (env : Env) (w : World) (req : Request) (id : String)
    (reply : Reply) : Prop :=
  Failed reply →
    Failed ((handleApprovalApprove core req id).run (exec env) w).1 ∧
    ∃ q, storedPending ((handleApprovalApprove core req id).run (exec env) w).2.store id = some q ∧
      q.status = .pending ∧ q.credentialData = none

variable {core : Core} {env : Env} {w : World} {req : Request} {id execID : String}
  {p : PendingRequest} {rule : ApprovalRule}

theorem failureNotRecorded_of_err (h : Ready core env w req id p rule execID) {e : GoError}
    (herr : (env.backend (executedRequest env req p execID)).err = some e) :
    Failed ((handleApprovalApprove core req id).run (exec env) w).1 ∧
    storedPending ((handleApprovalApprove core req id).run (exec env) w).2.store id =
      some (rolledBack (markedEntry req p env.now)).normalize := by
  obtain ⟨w', -, -, -, hrun⟩ := h.run_approve
  obtain ⟨value, hvalue⟩ :=
    exists_marshalJSON (r := rolledBack (markedEntry req p env.now)) h.entry rfl (.inl rfl)
  have hexecute := run_executeApprovedRequest_refused h.uuid rfl herr w'
  rw [hrun, run_executeOrRollBack_failed hexecute (h.reliable _) hvalue]
  exact ⟨.inl rfl, storedPending_put hvalue _ h.requestID⟩

/-- An error response is stored as the credential, or leaves the entry marked; in neither case is it
pending. -/
theorem recorded_of_logicalError (h : Ready core env w req id p rule execID)
    (herr : (env.backend (executedRequest env req p execID)).err = none) :
    ∃ q, storedPending ((handleApprovalApprove core req id).run (exec env) w).2.store id = some q ∧
      q.status = .approved := by
  obtain ⟨w', hmarked, -, -, hrun⟩ := h.run_approve
  cases hvalue : (withCredential (markedEntry req p env.now)
      (env.backend (executedRequest env req p execID)).resp env.now).marshalJSON with
  | some value =>
    rw [hrun, run_executeOrRollBack_stored h.reliable h.uuid rfl herr hvalue]
    exact ⟨_, storedPending_put hvalue _ h.requestID, rfl⟩
  | none =>
    rw [hrun, run_executeOrRollBack_unencodable h.uuid rfl herr hvalue]
    exact ⟨_, hmarked, rfl⟩

/-- A failed execution is kept out of the entry iff the failure is not an error response without a
Go error. -/
theorem failureNotRecorded_iff (core : Core) (env : Env) (w : World) (req : Request)
    (id execID : String) (p : PendingRequest) (rule : ApprovalRule)
    (h : Ready core env w req id p rule execID) :
    FailureNotRecorded core env w req id (env.backend (executedRequest env req p execID)) ↔
      ¬ LogicalError (env.backend (executedRequest env req p execID)) := by
  constructor
  · rintro hkept ⟨herr, hresp⟩
    obtain ⟨-, q, hq, hpending, -⟩ := hkept (.inr hresp)
    obtain ⟨q', hq', happroved⟩ := recorded_of_logicalError h herr
    obtain rfl := Option.some.inj (hq.symm.trans hq')
    rw [hpending] at happroved
    cases happroved
  intro hlogical hfailed
  cases herr : (env.backend (executedRequest env req p execID)).err with
  | some e =>
    obtain ⟨hreported, hstored⟩ := failureNotRecorded_of_err h herr
    have hunread : (rolledBack (markedEntry req p env.now)).credentialData = none := h.unread
    exact ⟨hreported, _, hstored, rfl, by simp [hunread, storedCredential]⟩
  | none =>
    rcases hfailed with herr' | hresp
    · rw [herr] at herr'
      cases herr'
    · exact (hlogical ⟨herr, hresp⟩).elim

def unknownRole (_ : Request) : Reply :=
  errorReply (ofString "unknown role: app")

/-- The error response becomes the approved credential. -/
theorem not_failureNotRecorded_unknownRole :
    ¬ FailureNotRecorded sampleCore (Env.quiet 1 unknownRole) (parkedWorld 1) sampleApprover "r1"
      (unknownRole (executedRequest (Env.quiet 1 unknownRole) sampleApprover
        sampleEntry.normalize "5d2b6e0c")) := by
  intro hkept
  obtain ⟨-, q, hq, hpending, -⟩ := hkept (.inr ⟨_, rfl, by decide⟩)
  have hstatus : (storedPending ((handleApprovalApprove sampleCore sampleApprover "r1").run
      (exec (Env.quiet 1 unknownRole)) (parkedWorld 1)).2.store "r1").map PendingRequest.status =
      some .approved := by decide
  rw [hq, Option.map_some, hpending] at hstatus
  cases hstatus

def unreachable (_ : Request) : Reply :=
  failedReply (.message (ofString "connection refused"))

theorem failureNotRecorded_unreachable :
    FailureNotRecorded sampleCore (Env.quiet 1 unreachable) (parkedWorld 1) sampleApprover "r1"
      (unreachable (executedRequest (Env.quiet 1 unreachable) sampleApprover
        sampleEntry.normalize "5d2b6e0c")) := by
  refine (failureNotRecorded_iff _ _ _ _ _ _ _ _ (ready_sample unreachable)).mpr ?_
  rintro ⟨herr, -⟩
  cases herr

end VaultProofs.FailedExecutions
