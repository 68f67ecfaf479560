import VaultProofs.ApprovalInterceptor

/-!
The approve, deny and fetch handlers of `sys/approvals/`, as programs over the vault interface. The
approve handler is cut where it has read the entry, has read the rule, and has marked the entry; log
lines and the Slack notification are left out.
-/

namespace VaultProofs.ApprovalHandlers

open GoStrings JsonValues ApprovalEntries VaultEffects ApprovalInterceptor

def callerIsRoot (core : Core) (req : Request) : Bool :=
  if req.clientToken = "" then false
  else
    match core.lookupToken req.clientToken with
    | none => false
    | some te => te.policies.any (· == "root")

def approvalEntityIsAuthorized (core : Core) (entityID : String)
    (approvers : List GoString) : Bool :=
  if entityID = "" then false
  else approvers.any fun approver => equalFold core.foldRune approver (ofString entityID)

def quoteID (core : Core) (id : String) : GoString :=
  core.quote (ofString id)

def notFoundReply (core : Core) (id : String) : Reply :=
  errorReply (ofString "no approval request found with ID " ++ quoteID core id)

def notPendingReply (core : Core) (id : String) (status : Status) : Reply :=
  errorReply (ofString "request " ++ quoteID core id ++
    ofString " is not pending (current status: " ++ ofString status.name ++ ofString ")")

def expiredReply (core : Core) (id : String) : Reply :=
  errorReply (ofString "request " ++ quoteID core id ++
    ofString " has expired and has been removed")

def orphanedReply (core : Core) (ruleID : String) : Reply :=
  errorReply (ofString "approval rule " ++ quoteID core ruleID ++
    ofString " no longer exists; orphaned request has been removed")

/-! Approve -/

-- The request that `executeApprovedRequest` rebuilds from the parked data.
def reconstructedRequest (pending : PendingRequest) (execID : String) : Request where
  id := execID
  operation := pending.originalOperation
  path := pending.originalPath
  data := pending.originalData
  headers := pending.originalHeaders
  entityID := pending.requesterEntityID
  displayName := pending.requesterDisplayName
  mountPoint := pending.originalMountPoint

def responseData : Option Response → GoMap
  | none => []
  | some resp => resp.data

def withCredential (pending : PendingRequest) (resp : Option Response) (now : Time) :
    PendingRequest :=
  let secret := resp.bind Response.secret
  { pending with
    secretTTL := (secret.map Secret.ttl).getD pending.secretTTL
    secretMaxTTL := (secret.map Secret.maxTTL).getD pending.secretMaxTTL
    credentialData := some (responseData resp)
    approvedAt := now }

/-- Execute the parked request. The Go function works on a pointer, so the entry is returned next to
the error. -/
def executeApprovedRequest (pending : PendingRequest) :
    VaultProg (Option GoError × PendingRequest) := do
  match ← generateUUID with
  | .error e => return (some (.wrapped "approval: failed to generate execution ID" e), pending)
  | .ok execID =>
    let reply ← doRouting (reconstructedRequest pending execID)
    match reply.err with
    | some e => return (some (.wrapped "approval: backend execution failed" e), pending)
    | none =>
      let executed := withCredential pending reply.resp (← timeNow)
      match ← storePendingRequest executed with
      | .error e => return (some e, executed)
      | .ok () => return (none, executed)

def voteReply (id : String) (rule : ApprovalRule) (pending : PendingRequest)
    (thresholdMet : Bool) : Reply :=
  dataReply
    [(ofString "status", textValue pending.status.name),
     (ofString "request_id", textValue id),
     (ofString "approvals_recorded", intValue pending.approvals.length),
     (ofString "approvals_required", intValue rule.approvalsRequired),
     (ofString "threshold_met", .bool thresholdMet)]

def castVote (req : Request) (pending : PendingRequest) (now : Time) : PendingRequest :=
  { pending with approvals := pending.approvals ++ [⟨req.entityID, now⟩] }

def thresholdMet (rule : ApprovalRule) (pending : PendingRequest) : Bool :=
  rule.approvalsRequired ≤ (pending.approvals.length : Int)

def rolledBack (pending : PendingRequest) : PendingRequest :=
  { pending with status := .pending, approvals := pending.approvals.dropLast }

theorem marshalJSON_rolledBack_eq_none_iff (pending : PendingRequest) :
    (rolledBack pending).marshalJSON = none ↔ pending.marshalJSON = none := by
  rw [PendingRequest.marshalJSON_eq_none_iff, PendingRequest.marshalJSON_eq_none_iff]
  rfl

def executeOrRollBack (id : String) (rule : ApprovalRule) (marked : PendingRequest) :
    VaultProg Reply := do
  match ← executeApprovedRequest marked with
  | (none, executed) => return voteReply id rule executed true
  | (some e, executed) =>
    let _ ← storePendingRequest (rolledBack executed)
    return failedReply (.wrapped "approval execution failed" e)

/-- The approve handler from the re-read on; `marked` has been written with
status "approved". -/
def finishExecution (id : String) (rule : ApprovalRule) (marked : PendingRequest) :
    VaultProg Reply := do
  match ← getPendingRequest id with
  | .error e => return failedReply e
  | .ok latest =>
    if (latest.bind PendingRequest.credentialData).isSome then
      return voteReply id rule marked true
    else executeOrRollBack id rule marked

/-- The entry with the vote of the caller, as written before the execution. -/
def markedEntry (req : Request) (pending : PendingRequest) (now : Time) : PendingRequest :=
  { castVote req pending now with status := .approved }

def recordVote (req : Request) (id : String) (rule : ApprovalRule)
    (pending : PendingRequest) : VaultProg Reply := do
  let now ← timeNow
  if thresholdMet rule (castVote req pending now) then
    match ← storePendingRequest (markedEntry req pending now) with
    | .error e => return failedReply e
    | .ok () => finishExecution id rule (markedEntry req pending now)
  else
    match ← storePendingRequest (castVote req pending now) with
    | .error e => return failedReply e
    | .ok () => return voteReply id rule (castVote req pending now) false

def hasVoted (entityID : String) (pending : PendingRequest) : Bool :=
  pending.approvals.any fun record => record.approverEntityID == entityID && entityID != ""

def selfApproval (req : Request) (pending : PendingRequest) : Bool :=
  req.entityID != "" && req.entityID == pending.requesterEntityID

def approveUnderRule (core : Core) (req : Request) (id : String) (pending : PendingRequest)
    (rule : ApprovalRule) : VaultProg Reply :=
  if !callerIsRoot core req &&
      !approvalEntityIsAuthorized core req.entityID rule.authorizedApprovers then
    return failedReply .permissionDenied
  else if !callerIsRoot core req && !rule.allowSelfApproval && selfApproval req pending then
    return respondWithStatusCode
      [(ofString "error", textValue
        "Separation of Duties violation: you cannot approve your own request")] req 403
  else if hasVoted req.entityID pending then
    return errorReply (ofString "entity " ++ quoteID core req.entityID ++
      ofString " has already approved this request")
  else recordVote req id rule pending

def approvePending (core : Core) (req : Request) (id : String) (pending : PendingRequest) :
    VaultProg Reply := do
  if pending.status ≠ .pending then return notPendingReply core id pending.status
  else if (← timeNow) > pending.expiresAt then
    let _ ← storageDelete (pendingKey id)
    return expiredReply core id
  else
    match ← getApprovalRule pending.ruleID with
    | .error e => return failedReply e
    | .ok none =>
      let _ ← storageDelete (pendingKey id)
      return orphanedReply core pending.ruleID
    | .ok (some rule) => approveUnderRule core req id pending rule

def handleApprovalApprove (core : Core) (req : Request) (id : String) : VaultProg Reply := do
  match ← getPendingRequest id with
  | .error e => return failedReply e
  | .ok none => return notFoundReply core id
  | .ok (some pending) => approvePending core req id pending

/-! Deny -/

def historyEntry (pending : PendingRequest) (status : HistoryStatus) (now : Time)
    (resolvedBy : String) (resolvedByName : GoString) : ApprovalHistoryEntry where
  requestID := pending.requestID
  ruleID := pending.ruleID
  originalPath := pending.originalPath
  requesterEntityID := pending.requesterEntityID
  requesterDisplayName := pending.requesterDisplayName
  justification := pending.justification
  status := status
  createdAt := pending.createdAt
  resolvedAt := now
  resolvedBy := resolvedBy
  resolvedByName := resolvedByName
  historyExpiresAt := now + approvalHistoryTTL

def resolverName (core : Core) (entityID : String) : GoString :=
  if entityID = "" then [] else (core.entityName entityID).getD []

def denyPending (core : Core) (req : Request) (id : String) (pending : PendingRequest) :
    VaultProg Reply := do
  if pending.status ≠ .pending then return notPendingReply core id pending.status
  else if (← timeNow) > pending.expiresAt then
    let _ ← storageDelete (pendingKey id)
    return expiredReply core id
  else
    match ← getApprovalRule pending.ruleID with
    | .error e => return failedReply e
    | .ok none =>
      let _ ← storageDelete (pendingKey id)
      return orphanedReply core pending.ruleID
    | .ok (some rule) =>
      if !callerIsRoot core req && !selfApproval req pending &&
          !approvalEntityIsAuthorized core req.entityID rule.authorizedApprovers then
        return failedReply .permissionDenied
      else
        match ← storePendingRequest { pending with status := .denied } with
        | .error e => return failedReply e
        | .ok () =>
          let _ ← storeHistoryEntry (historyEntry pending .denied (← timeNow) req.entityID
            (resolverName core req.entityID))
          return dataReply [(ofString "status", textValue "denied"),
            (ofString "request_id", textValue id)]

def guarded (core : Core) (id : String) (pending : PendingRequest)
    (f : ApprovalRule → VaultProg Reply) : VaultProg Reply := do
  if pending.status ≠ .pending then return notPendingReply core id pending.status
  else if (← timeNow) > pending.expiresAt then
    let _ ← storageDelete (pendingKey id)
    return expiredReply core id
  else
    match ← getApprovalRule pending.ruleID with
    | .error e => return failedReply e
    | .ok none =>
      let _ ← storageDelete (pendingKey id)
      return orphanedReply core pending.ruleID
    | .ok (some rule) => f rule

def handleApprovalDeny (core : Core) (req : Request) (id : String) : VaultProg Reply := do
  match ← getPendingRequest id with
  | .error e => return failedReply e
  | .ok none => return notFoundReply core id
  | .ok (some pending) => denyPending core req id pending

/-! Fetch -/

def mayFetch (core : Core) (req : Request) (pending : PendingRequest) : Bool :=
  if pending.requesterEntityID = "" then callerIsRoot core req
  else req.entityID == pending.requesterEntityID

def lastApprover (pending : PendingRequest) : String :=
  (pending.approvals.getLast?.map ApprovalRecord.approverEntityID).getD ""

-- Whole seconds, `int64(d.Seconds())`.
def wholeSeconds (d : Duration) : Int :=
  d.tdiv second

def leaseHints (secretTTL secretMaxTTL : Duration) : GoMap :=
  (if 0 < secretTTL then
    [(ofString "lease_duration", intValue (wholeSeconds secretTTL))] else []) ++
  (if 0 < secretMaxTTL then
    [(ofString "lease_max_duration", intValue (wholeSeconds secretMaxTTL))] else [])

/-- The response of a successful fetch. The credential comes after the two reserved keys and the
lease hints come last, so a hint replaces an entry of the same name. -/
def credentialResponse (id : String) (pending : PendingRequest) : GoMap :=
  [(ofString "status", textValue "approved"), (ofString "request_id", textValue id)] ++
    pending.credentialData.getD [] ++ leaseHints pending.secretTTL pending.secretMaxTTL

def storeHistory (core : Core) (pending : PendingRequest) (status : HistoryStatus)
    (resolvedBy : String) : VaultProg Unit := do
  let _ ← storeHistoryEntry
    (historyEntry pending status (← timeNow) resolvedBy (resolverName core resolvedBy))
  return ()

-- The write of the tombstone is best effort; only the delete can fail the call.
def burnCredential (core : Core) (id : String) (pending : PendingRequest) : VaultProg Reply := do
  let _ ← storePendingRequest { pending with credentialData := none }
  match ← storageDelete (pendingKey id) with
  | .error e => return failedReply e
  | .ok () =>
    storeHistory core pending .retrieved (lastApprover pending)
    return dataReply (credentialResponse id pending)

def fetchPending (core : Core) (req : Request) (id : String) (pending : PendingRequest) :
    VaultProg Reply := do
  match pending.status with
  | .pending =>
    if (← timeNow) > pending.expiresAt then
      let _ ← storageDelete (pendingKey id)
      storeHistory core pending .expired ""
      return dataReply [(ofString "status", textValue "expired"),
        (ofString "request_id", textValue id),
        (ofString "message", textValue "Request has expired and has been removed.")]
    else
      return respondWithStatusCode
        [(ofString "status", textValue "pending"), (ofString "request_id", textValue id),
         (ofString "approvals_recorded", intValue pending.approvals.length)] req 202
  | .denied =>
    return dataReply [(ofString "status", textValue "denied"),
      (ofString "request_id", textValue id)]
  | .approved =>
    if pending.credentialData.isNone then
      return errorReply (ofString "credential for request " ++ quoteID core id ++
        ofString " has already been retrieved")
    else if pending.approvedAt ≠ 0 ∧
        (← timeNow) - pending.approvedAt > approvalCredentialTTL then
      let _ ← storageDelete (pendingKey id)
      storeHistory core pending .expired (lastApprover pending)
      return errorReply (ofString "credential for request " ++ quoteID core id ++
        ofString " has expired (90-minute retrieval window passed)")
    else burnCredential core id pending
  | .unknown => return errorReply (ofString "unknown status for request " ++ quoteID core id)

def handleApprovalFetch (core : Core) (req : Request) (id : String) : VaultProg Reply := do
  match ← getPendingRequest id with
  | .error e => return failedReply e
  | .ok none =>
    return respondWithStatusCode
      [(ofString "error", .str (ofString "approval request " ++ quoteID core id ++
        ofString (" not found — it may have expired, been removed, or the server was " ++
          "restarted")))] req 404
  | .ok (some pending) =>
    if mayFetch core req pending then fetchPending core req id pending
    else return failedReply .permissionDenied

end VaultProofs.ApprovalHandlers
