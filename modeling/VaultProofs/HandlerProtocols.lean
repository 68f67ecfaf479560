import VaultProofs.ApprovalProtocol

/-!
The handlers follow the automaton, and their answers say in which phase they end: a recorded vote or
a denial is stored, and a credential that is handed out was taken out of the entry.
-/

namespace VaultProofs.HandlerProtocols

open GoStrings JsonValues EffectPrograms ApprovalEntries VaultEffects ApprovalInterceptor
open ApprovalHandlers ApprovalProtocol

def VoteRecorded (reply : Reply) : Prop :=
  ∃ resp, reply.resp = some resp ∧
    (lastValue resp.data (ofString "approvals_recorded")).isSome = true

theorem not_voteRecorded_errorReply (text : GoString) : ¬ VoteRecorded (errorReply text) := by
  rintro ⟨resp, hresp, hkey⟩
  obtain rfl : { data := [(ofString "error", .str text)] } = resp := by
    simpa [errorReply, dataReply] using hresp
  simp at hkey

theorem not_voteRecorded_failedReply (e : GoError) : ¬ VoteRecorded (failedReply e) := by
  rintro ⟨resp, hresp, -⟩
  cases hresp

theorem not_voteRecorded_respondWithStatusCode (inner : GoMap) (req : Request) (code : Int) :
    ¬ VoteRecorded (respondWithStatusCode inner req code) := by
  rintro ⟨resp, hresp, hkey⟩
  simp only [respondWithStatusCode, dataReply, Option.some.injEq] at hresp
  subst hresp
  simp at hkey

/-- An approve call answers with a recorded vote only when its vote is stored. -/
def approveFinal (q : Phase) (reply : Reply) : Prop :=
  VoteRecorded reply → q = .accepted

/-- Where an execution of `marked` can stop: the credential is stored, the execution failed before
the write, or the response cannot be encoded. -/
def executeFinal (marked : PendingRequest) (q : Phase) :
    Option GoError × PendingRequest → Prop
  | (none, _) => q = .accepted
  | (some _, executed) =>
    (q = .failed marked.normalize ∧ executed = marked) ∨
    (q = .dispatched marked.normalize ∧ executed.marshalJSON = none ∧
      executed.requestID = marked.requestID)

theorem executeApprovedRequest_follows (id entityID : String) (marked : PendingRequest)
    (hid : marked.requestID = id) :
    (entryProtocol id (.approver entityID)).Follows (executeFinal marked)
      (.cleared marked.normalize) (executeApprovedRequest marked) := by
  rintro uuid -
  cases uuid with
  | error e =>
    exact ⟨.failed marked.normalize, Move.abort, .inl ⟨rfl, rfl⟩⟩
  | ok execID =>
    refine ⟨.cleared marked.normalize, Move.quiet, ?_⟩
    refine follows_doRouting fun reply => ?_
    cases herr : reply.err with
    | some e =>
      refine ⟨.failed marked.normalize, Move.dispatchFailed, ?_⟩
      exact .inl ⟨rfl, rfl⟩
    | none =>
      refine ⟨.dispatched marked.normalize, Move.dispatch, ?_⟩
      refine follows_timeNow fun now => ?_
      refine follows_storePendingRequest hid ?_ ?_
      · intro hnone
        exact .inr ⟨rfl, hnone, rfl⟩
      · intro value _
        refine ⟨.accepted, ?_, rfl⟩
        exact Move.execute rfl rfl hid

theorem executeOrRollBack_follows (id entityID : String) (rule : ApprovalRule)
    (marked : PendingRequest) (hid : marked.requestID = id) :
    (entryProtocol id (.approver entityID)).Follows approveFinal
      (.cleared marked.normalize) (executeOrRollBack id rule marked) := by
  refine Protocol.follows_bind.mpr
    (Protocol.Follows.mono ?_ (executeApprovedRequest_follows id entityID marked hid))
  rintro q ⟨err, executed⟩ hq
  cases err with
  | none =>
    intro _
    exact hq
  | some e =>
    have hreply : ∀ q', approveFinal q' (failedReply (.wrapped "approval execution failed" e)) :=
      fun _ hvote => (not_voteRecorded_failedReply _ hvote).elim
    rcases hq with ⟨rfl, rfl⟩ | ⟨rfl, hnone, hexecuted⟩
    · refine follows_storePendingRequest hid (fun _ => hreply _) ?_
      intro value _
      exact ⟨.over, Move.rollback hid, hreply _⟩
    refine follows_storePendingRequest (hexecuted.trans hid) (fun _ => hreply _) ?_
    intro value hvalue
    rw [(marshalJSON_rolledBack_eq_none_iff executed).mpr hnone] at hvalue
    cases hvalue

theorem finishExecution_follows (id entityID : String) (rule : ApprovalRule)
    (marked : PendingRequest) (hid : marked.requestID = id) :
    (entryProtocol id (.approver entityID)).Follows approveFinal
      (.marked marked.normalize) (finishExecution id rule marked) := by
  have hexecute := executeOrRollBack_follows id entityID rule marked hid
  refine follows_getPendingRequest ?_ ?_
  · intro found hfound
    refine ⟨.cleared marked.normalize, Move.reread, ?_⟩
    match found with
    | .error e => exact fun hvote => (not_voteRecorded_failedReply e hvote).elim
    | .ok none => exact hexecute
    | .ok (some p) => exact (hfound p rfl).elim
  intro p _
  cases hcredential : p.credentialData with
  | none =>
    refine ⟨.cleared marked.normalize, Move.reread, ?_⟩
    simpa [hcredential] using hexecute
  | some data =>
    refine ⟨.accepted, Move.rereadDone, ?_⟩
    simp only [Option.bind_some, hcredential, Option.isSome_some, if_true]
    exact fun _ => rfl

variable (core : Core) (req : Request) (id : String)

theorem recordVote_follows (rule : ApprovalRule) (p : PendingRequest) (hid : p.requestID = id)
    (hstatus : p.status = .pending) (hfirst : hasVoted req.entityID p = false) :
    (entryProtocol id (.approver req.entityID)).Follows approveFinal
      (.holding p) (recordVote req id rule p) := by
  refine follows_timeNow fun now => ?_
  have hfail : ∀ q e, approveFinal q (failedReply e) :=
    fun _ e hvote => (not_voteRecorded_failedReply e hvote).elim
  split
  · refine follows_storePendingRequest hid (fun _ => hfail _ _) ?_
    intro value _
    refine ⟨_, Move.mark ⟨hstatus, hfirst, now, rfl⟩ rfl hid, ?_⟩
    exact finishExecution_follows id req.entityID rule _ hid
  refine follows_storePendingRequest hid (fun _ => hfail _ _) ?_
  intro value _
  refine ⟨.accepted, Move.vote ?_ hstatus hid, fun _ => rfl⟩
  exact ⟨hstatus, hfirst, now, rfl⟩

theorem approveUnderRule_follows (p : PendingRequest) (rule : ApprovalRule) (hid : p.requestID = id)
    (hstatus : p.status = .pending) :
    (entryProtocol id (.approver req.entityID)).Follows approveFinal
      (.holding p) (approveUnderRule core req id p rule) := by
  unfold approveUnderRule
  split
  · exact fun hvote => (not_voteRecorded_failedReply _ hvote).elim
  split
  · exact fun hvote => (not_voteRecorded_respondWithStatusCode _ _ _ hvote).elim
  · split
    · exact fun hvote => (not_voteRecorded_errorReply _ hvote).elim
    · rename_i hvoted
      exact recordVote_follows req id rule p hid hstatus (by simpa using hvoted)

/-- What the two handlers do alike follows the protocol with any requirement that their
refusals meet. -/
theorem guarded_follows {core : Core} {id : String} {role : Role} {final : Phase → Reply → Prop}
    {f : PendingRequest → ApprovalRule → VaultProg Reply}
    (herror : ∀ q text, final q (errorReply text)) (hfail : ∀ q e, final q (failedReply e))
    (hf : ∀ p rule, p.requestID = id → p.status = .pending →
      (entryProtocol id role).Follows final (.holding p) (f p rule)) :
    (entryProtocol id role).Follows final .idle (do
      match ← getPendingRequest id with
      | .error e => return failedReply e
      | .ok none => return notFoundReply core id
      | .ok (some p) => guarded core id p (f p)) := by
  refine follows_getPendingRequest ?_ ?_
  · intro found hfound
    refine ⟨.over, Move.absent, ?_⟩
    match found with
    | .error e => exact hfail _ e
    | .ok none => exact herror _ _
    | .ok (some p) => exact (hfound p rfl).elim
  intro p hid
  refine ⟨.holding p, Move.take, ?_⟩
  simp only [guarded]
  split
  · exact herror _ _
  rename_i hpending
  have hstatus : p.status = .pending := by simpa using hpending
  refine follows_timeNow fun now => ?_
  split
  · exact follows_storageDelete ⟨.over, Move.remove hstatus, herror _ _⟩
  refine follows_getApprovalRule fun found => ?_
  match found with
  | .error e => exact hfail _ e
  | .ok none => exact follows_storageDelete ⟨.over, Move.remove hstatus, herror _ _⟩
  | .ok (some rule) => exact hf p rule hid hstatus

theorem handleApprovalApprove_follows :
    (entryProtocol id (.approver req.entityID)).Follows approveFinal .idle
      (handleApprovalApprove core req id) :=
  guarded_follows (fun _ text hvote => (not_voteRecorded_errorReply text hvote).elim)
    (fun _ e hvote => (not_voteRecorded_failedReply e hvote).elim)
    (approveUnderRule_follows core req id)

def HasStatus (reply : Reply) (status : String) : Prop :=
  ∃ resp, reply.resp = some resp ∧
    lastValue resp.data (ofString "status") = some (textValue status)

theorem not_hasStatus_errorReply (text : GoString) (status : String) :
    ¬ HasStatus (errorReply text) status := by
  rintro ⟨resp, hresp, hkey⟩
  obtain rfl : { data := [(ofString "error", .str text)] } = resp := by
    simpa [errorReply, dataReply] using hresp
  simp at hkey

theorem not_hasStatus_failedReply (e : GoError) (status : String) :
    ¬ HasStatus (failedReply e) status := by
  rintro ⟨resp, hresp, -⟩
  cases hresp

/-- A deny call answers with status "denied" only when the denial is stored. -/
def denyFinal (q : Phase) (reply : Reply) : Prop :=
  HasStatus reply "denied" → q = .denied

theorem handleApprovalDeny_follows :
    (entryProtocol id .denier).Follows denyFinal .idle (handleApprovalDeny core req id) := by
  have hfail : ∀ q e, denyFinal q (failedReply e) :=
    fun _ e hstatus => (not_hasStatus_failedReply e _ hstatus).elim
  refine guarded_follows (fun _ text hstatus => (not_hasStatus_errorReply text _ hstatus).elim)
    hfail fun p rule hid hstatus => ?_
  split
  · exact hfail _ _
  refine follows_storePendingRequest hid (fun _ => hfail _ _) ?_
  intro value _
  refine ⟨.denied, Move.deny hstatus rfl hid, ?_⟩
  refine follows_timeNow fun now => ?_
  refine follows_storeHistoryEntry fun stored => ?_
  exact fun _ => rfl

def DeliversCredential (id : String) (reply : Reply) : Prop :=
  ∃ p : PendingRequest, p.credentialData.isSome = true ∧
    reply = dataReply (credentialResponse id p)

theorem not_deliversCredential_errorReply (text : GoString) :
    ¬ DeliversCredential id (errorReply text) := by
  rintro ⟨p, -, hreply⟩
  simp [errorReply, dataReply, credentialResponse] at hreply

theorem not_deliversCredential_failedReply (e : GoError) :
    ¬ DeliversCredential id (failedReply e) := by
  rintro ⟨p, -, hreply⟩
  cases hreply

theorem not_deliversCredential_respondWithStatusCode (inner : GoMap) (req : Request) (code : Int) :
    ¬ DeliversCredential id (respondWithStatusCode inner req code) := by
  rintro ⟨p, -, hreply⟩
  simp [respondWithStatusCode, dataReply, credentialResponse] at hreply

theorem not_deliversCredential_status (id status : String) (rest : GoMap)
    (hstatus : status ≠ "approved") :
    ¬ DeliversCredential id (dataReply ((ofString "status", textValue status) :: rest)) := by
  rintro ⟨p, -, hreply⟩
  simp [dataReply, credentialResponse, textValue, hstatus] at hreply

def fetchFinal (id : String) (q : Phase) (reply : Reply) : Prop :=
  DeliversCredential id reply → q = .released

theorem burnCredential_follows (p : PendingRequest) (hid : p.requestID = id)
    (hcredential : p.credentialData.isSome = true) :
    (entryProtocol id .fetcher).Follows (fetchFinal id) (.holding p)
      (burnCredential core id p) := by
  have hrest : (entryProtocol id .fetcher).Follows (fetchFinal id) .released
      (storeHistory core p .retrieved (lastApprover p) >>= fun _ =>
        pure (dataReply (credentialResponse id p))) := by
    refine follows_timeNow fun now => ?_
    refine follows_storeHistoryEntry fun stored => ?_
    exact fun _ => rfl
  refine follows_storePendingRequest hid ?_ ?_
  · intro _
    exact follows_storageDelete ⟨.released, Move.releaseUnmarked hcredential, hrest⟩
  · intro value _
    refine ⟨.burned, Move.burn hcredential rfl hid, ?_⟩
    exact follows_storageDelete ⟨.released, Move.release, hrest⟩

theorem handleApprovalFetch_follows :
    (entryProtocol id .fetcher).Follows (fetchFinal id) .idle
      (handleApprovalFetch core req id) := by
  have herror : ∀ q text, fetchFinal id q (errorReply text) :=
    fun _ text h => (not_deliversCredential_errorReply id text h).elim
  have hfail : ∀ q e, fetchFinal id q (failedReply e) :=
    fun _ e h => (not_deliversCredential_failedReply id e h).elim
  have hcode : ∀ q inner code, fetchFinal id q (respondWithStatusCode inner req code) :=
    fun _ inner code h => (not_deliversCredential_respondWithStatusCode id inner req code h).elim
  refine follows_getPendingRequest ?_ ?_
  · intro found hfound
    refine ⟨.over, Move.absent, ?_⟩
    match found with
    | .error e => exact hfail _ e
    | .ok none => exact hcode _ _ _
    | .ok (some p) => exact (hfound p rfl).elim
  intro p hid
  refine ⟨.holding p, Move.take, ?_⟩
  simp only
  split
  · unfold fetchPending
    split
    · rename_i hstatus
      refine follows_timeNow fun now => ?_
      split
      · refine follows_storageDelete ⟨.over, Move.remove hstatus, ?_⟩
        refine follows_timeNow fun now => ?_
        refine follows_storeHistoryEntry fun stored => ?_
        exact fun h => (not_deliversCredential_status id _ _ (by decide) h).elim
      · exact hcode _ _ _
    · exact fun h => (not_deliversCredential_status id _ _ (by decide) h).elim
    · rename_i hstatus
      split
      · exact herror _ _
      rename_i hcredential
      have hsome : p.credentialData.isSome = true := by
        cases hdata : p.credentialData with
        | none => simp [hdata] at hcredential
        | some data => rfl
      refine follows_timeNow fun now => ?_
      split
      · refine follows_storageDelete ⟨.over, Move.expire hstatus, ?_⟩
        refine follows_timeNow fun now => ?_
        refine follows_storeHistoryEntry fun stored => ?_
        exact herror _ _
      · exact burnCredential_follows core id p hid hsome
    · exact herror _ _
  · exact hfail _ _

end VaultProofs.HandlerProtocols
