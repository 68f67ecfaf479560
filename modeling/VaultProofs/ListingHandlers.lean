import VaultProofs.ApprovalHandlers

/-!
The handlers of `sys/approvals/` that show requests: the pending list, one pending request, what the
caller may approve, the caller's requests, and the history. They remove entries that they find
outdated.
-/

namespace VaultProofs.ListingHandlers

open GoStrings JsonValues ApprovalEntries VaultEffects ApprovalInterceptor ApprovalHandlers

def isApproverOfSomeRule (core : Core) (entityID : String) : List String → VaultProg Bool
  | [] => return false
  | key :: rest => do
      match ← getApprovalRule key with
      | .ok (some rule) =>
        if approvalEntityIsAuthorized core entityID rule.authorizedApprovers then return true
        else isApproverOfSomeRule core entityID rest
      | _ => isApproverOfSomeRule core entityID rest

-- The gate shared by the pending list and the history.
def approverGate (core : Core) (req : Request) : VaultProg (Option GoError) := do
  if callerIsRoot core req then return none
  else if req.entityID = "" then return some .permissionDenied
  else
    match ← storageList .config with
    | .error e => return some e
    | .ok ruleKeys =>
      if ← isApproverOfSomeRule core req.entityID ruleKeys then return none
      else return some .permissionDenied

def handleApprovalPendingList (core : Core) (req : Request) : VaultProg Reply := do
  match ← approverGate core req with
  | some e => return failedReply e
  | none =>
    match ← storageList .pending with
    | .error e => return failedReply e
    | .ok keys => return dataReply [(ofString "keys", .slice (keys.map textValue))]

def approvalsValue (approvals : List ApprovalRecord) : GoValue :=
  .slice (approvals.map fun record =>
    .map [(ofString "approver_entity_id", textValue record.approverEntityID),
      (ofString "approved_at", .time record.approvedAt)])

def pendingData (pending : PendingRequest) : GoMap :=
  [(ofString "request_id", textValue pending.requestID),
   (ofString "rule_id", textValue pending.ruleID),
   (ofString "original_path", .str pending.originalPath),
   (ofString "original_operation", textValue pending.originalOperation.name),
   (ofString "requester_entity_id", textValue pending.requesterEntityID),
   (ofString "requester_display_name", .str pending.requesterDisplayName),
   (ofString "status", textValue pending.status.name),
   (ofString "approvals", approvalsValue pending.approvals),
   (ofString "created_at", .time pending.createdAt),
   (ofString "expires_at", .time pending.expiresAt)]

def mayReadPending (core : Core) (req : Request) (pending : PendingRequest) : VaultProg Bool := do
  if callerIsRoot core req then return true
  else if req.entityID ≠ "" ∧ req.entityID = pending.requesterEntityID then return true
  else
    match ← getApprovalRule pending.ruleID with
    | .ok (some rule) =>
      return approvalEntityIsAuthorized core req.entityID rule.authorizedApprovers
    | _ => return false

def handleApprovalPendingRead (core : Core) (req : Request) (id : String) : VaultProg Reply := do
  match ← getPendingRequest id with
  | .error e => return failedReply e
  | .ok none => return notFoundReply core id
  | .ok (some pending) =>
    if ← mayReadPending core req pending then
      if pending.status = .pending then
        if (← timeNow) > pending.expiresAt then
          let _ ← storageDelete (pendingKey id)
          return expiredReply core id
        else return dataReply (pendingData pending)
      else return dataReply (pendingData pending)
    else return failedReply .permissionDenied

def approvableRow (p : PendingRequest) : GoValue :=
  .map
    [(ofString "request_id", textValue p.requestID),
     (ofString "rule_id", textValue p.ruleID),
     (ofString "original_path", .str p.originalPath),
     (ofString "original_operation", textValue p.originalOperation.name),
     (ofString "requester_entity_id", textValue p.requesterEntityID),
     (ofString "requester_display_name", .str p.requesterDisplayName),
     (ofString "justification", .str p.justification),
     (ofString "status", textValue p.status.name),
     (ofString "approvals", approvalsValue p.approvals),
     (ofString "created_at", .time p.createdAt),
     (ofString "expires_at", .time p.expiresAt)]

def mayApproveRow (core : Core) (req : Request) (p : PendingRequest) : VaultProg Bool := do
  if callerIsRoot core req then return true
  else
    match ← getApprovalRule p.ruleID with
    | .ok (some rule) =>
      return approvalEntityIsAuthorized core req.entityID rule.authorizedApprovers
    | _ => return false

def approvableRows (core : Core) (req : Request) : List String → VaultProg (List GoValue)
  | [] => return []
  | key :: rest => do
      match ← getPendingRequest key with
      | .ok (some p) =>
        if p.status ≠ .pending then approvableRows core req rest
        else
          let now ← timeNow
          if now > p.expiresAt then
            let _ ← storageDelete (pendingKey key)
            approvableRows core req rest
          else
            let allowed ← mayApproveRow core req p
            let rows ← approvableRows core req rest
            return if allowed then approvableRow p :: rows else rows
      | _ => approvableRows core req rest

def warningReply (warning : String) : Reply :=
  { resp := some
      { data := [(ofString "requests", .slice [])], warnings := [ofString warning] } }

def handleApprovalApprovable (core : Core) (req : Request) : VaultProg Reply := do
  if !callerIsRoot core req && req.entityID == "" then
    return warningReply
      "Token has no entity ID; cannot determine approvable requests. Sign in with OIDC."
  else
    match ← storageList .pending with
    | .error e => return failedReply e
    | .ok keys =>
      let rows ← approvableRows core req keys
      return dataReply [(ofString "requests", .slice rows)]

def myRequestRow (p : PendingRequest) : GoValue :=
  .map <|
    [(ofString "request_id", textValue p.requestID),
     (ofString "rule_id", textValue p.ruleID),
     (ofString "original_path", .str p.originalPath),
     (ofString "justification", .str p.justification),
     (ofString "status", textValue p.status.name),
     (ofString "created_at", .time p.createdAt),
     (ofString "expires_at", .time p.expiresAt)] ++
    (if p.approvedAt ≠ 0 then [(ofString "approved_at", .time p.approvedAt)] else [])

-- Past its time limit: a pending entry, or the retrieval window of an approved one.
def outdated (p : PendingRequest) (now : Time) : Bool :=
  (p.status = .pending && now > p.expiresAt) ||
    (p.status = .approved && p.approvedAt ≠ 0 && now - p.approvedAt ≥ approvalCredentialTTL)

def myRequestRows (req : Request) : List String → VaultProg (List GoValue)
  | [] => return []
  | key :: rest => do
      match ← getPendingRequest key with
      | .ok (some p) =>
        if p.requesterEntityID ≠ req.entityID then myRequestRows req rest
        else
          let now ← timeNow
          if outdated p now then
            let _ ← storageDelete (pendingKey key)
            myRequestRows req rest
          else
            let rows ← myRequestRows req rest
            return myRequestRow p :: rows
      | _ => myRequestRows req rest

def liveHistory (now : Time) : List String → VaultProg (List ApprovalHistoryEntry)
  | [] => return []
  | key :: rest => do
      match decodeEntry ApprovalHistoryEntry.decodeJSON (← storageGet (historyKey key)) with
      | .ok (some h) =>
        if now > h.historyExpiresAt then
          let _ ← storageDelete (historyKey key)
          liveHistory now rest
        else
          let entries ← liveHistory now rest
          return h :: entries
      | _ => liveHistory now rest

def listAllHistoryEntries : VaultProg (Except GoError (List ApprovalHistoryEntry)) := do
  match ← storageList .history with
  | .error e => return .error e
  | .ok keys =>
    let entries ← liveHistory (← timeNow) keys
    return .ok entries

def listHistoryEntriesForUser (entityID : String) :
    VaultProg (Except GoError (List ApprovalHistoryEntry)) := do
  match ← listAllHistoryEntries with
  | .error e => return .error e
  | .ok entries => return .ok (entries.filter fun h => h.requesterEntityID == entityID)

def myHistoryRow (h : ApprovalHistoryEntry) : GoValue :=
  .map
    [(ofString "request_id", textValue h.requestID),
     (ofString "rule_id", textValue h.ruleID),
     (ofString "original_path", .str h.originalPath),
     (ofString "justification", .str h.justification),
     (ofString "status", textValue h.status.name),
     (ofString "created_at", .time h.createdAt),
     (ofString "resolved_at", .time h.resolvedAt),
     (ofString "resolved_by", textValue h.resolvedBy),
     (ofString "resolved_by_name", .str h.resolvedByName)]

-- A history that cannot be listed is logged and left out of the answer.
def handleApprovalMyRequests (req : Request) : VaultProg Reply := do
  if req.entityID = "" then
    return warningReply
      ("This token has no entity ID. My Requests shows requests tied to your OIDC identity. " ++
        "Sign in with OIDC to see your personal requests.")
  else
    match ← storageList .pending with
    | .error e => return failedReply e
    | .ok keys =>
      let rows ← myRequestRows req keys
      match ← listHistoryEntriesForUser req.entityID with
      | .error _ => return dataReply [(ofString "requests", .slice rows)]
      | .ok entries =>
        return dataReply
          [(ofString "requests", .slice (rows ++ entries.map myHistoryRow))]

def historyRow (h : ApprovalHistoryEntry) : GoValue :=
  .map
    [(ofString "request_id", textValue h.requestID),
     (ofString "rule_id", textValue h.ruleID),
     (ofString "original_path", .str h.originalPath),
     (ofString "requester_entity_id", textValue h.requesterEntityID),
     (ofString "requester_display_name", .str h.requesterDisplayName),
     (ofString "justification", .str h.justification),
     (ofString "status", textValue h.status.name),
     (ofString "created_at", .time h.createdAt),
     (ofString "resolved_at", .time h.resolvedAt),
     (ofString "resolved_by", textValue h.resolvedBy),
     (ofString "resolved_by_name", .str h.resolvedByName),
     (ofString "history_expires_at", .time h.historyExpiresAt)]

def handleApprovalHistory (core : Core) (req : Request) : VaultProg Reply := do
  match ← approverGate core req with
  | some e => return failedReply e
  | none =>
    match ← listAllHistoryEntries with
    | .error e => return failedReply e
    | .ok entries => return dataReply [(ofString "entries", .slice (entries.map historyRow))]

end VaultProofs.ListingHandlers
