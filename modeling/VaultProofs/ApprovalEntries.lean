import VaultProofs.JsonRecords

/-!
The records of the approval workflow and their stored form. `marshalJSON` lists the members with the
tags of the Go struct, `decodeJSON` reads them back, and `normalize` is what comes back after one
trip through storage.
-/

namespace VaultProofs.ApprovalEntries

open GoStrings JsonValues

inductive Operation where
  | create
  | read
  | update
  | patch
  | delete
  | list
  | help
  | aliasLookahead
  | resolveRole
  | header
  | recover
  | revoke
  | renew
  | rollback
  | rotate
  deriving DecidableEq

def Operation.name : Operation → String
  | .create => "create"
  | .read => "read"
  | .update => "update"
  | .patch => "patch"
  | .delete => "delete"
  | .list => "list"
  | .help => "help"
  | .aliasLookahead => "alias-lookahead"
  | .resolveRole => "resolve-role"
  | .header => "header"
  | .recover => "recover"
  | .revoke => "revoke"
  | .renew => "renew"
  | .rollback => "rollback"
  | .rotate => "rotate"

def Operation.all : List Operation :=
  [.create, .read, .update, .patch, .delete, .list, .help, .aliasLookahead, .resolveRole,
    .header, .recover, .revoke, .renew, .rollback, .rotate]

def Operation.ofName (name : String) : Option Operation :=
  Operation.all.find? fun op => op.name == name

-- Every text other than the three statuses the code writes is `unknown`.
inductive Status where
  | pending
  | approved
  | denied
  | unknown
  deriving DecidableEq

def Status.name : Status → String
  | .pending => "pending"
  | .approved => "approved"
  | .denied => "denied"
  | .unknown => ""

def Status.ofName (name : String) : Status :=
  if name = "pending" then .pending
  else if name = "approved" then .approved
  else if name = "denied" then .denied
  else .unknown

structure ApprovalRule where
  ruleID : String := ""
  description : GoString := []
  targetMountPath : GoString := []
  authorizedApprovers : List GoString := []
  approvalsRequired : Int := 0
  slackWebhookURL : GoString := []
  createdByEntityID : String := ""
  allowSelfApproval : Bool := false

structure ApprovalRecord where
  approverEntityID : String
  approvedAt : Time
  deriving DecidableEq

/-- A parked request. Entity, rule and request IDs are generated or pattern-checked text; what a
client can choose is a Go string. -/
structure PendingRequest where
  requestID : String := ""
  ruleID : String := ""
  originalPath : GoString := []
  originalOperation : Operation := .read
  originalData : Option GoMap := none
  originalHeaders : List (GoString × List GoString) := []
  originalMountPoint : GoString := []
  requesterEntityID : String := ""
  requesterDisplayName : GoString := []
  approvals : List ApprovalRecord := []
  status : Status := .unknown
  createdAt : Time := 0
  expiresAt : Time := 0
  credentialData : Option GoMap := none
  approvedAt : Time := 0
  secretTTL : Duration := 0
  secretMaxTTL : Duration := 0
  justification : GoString := []

inductive HistoryStatus where
  | retrieved
  | denied
  | expired
  deriving DecidableEq

structure ApprovalHistoryEntry where
  requestID : String
  ruleID : String
  originalPath : GoString
  requesterEntityID : String
  requesterDisplayName : GoString
  justification : GoString
  status : HistoryStatus
  createdAt : Time
  resolvedAt : Time
  resolvedBy : String
  resolvedByName : GoString
  historyExpiresAt : Time

def textJson (text : GoString) : Json :=
  .str (coerceUTF8 text)

def coerced (text : GoString) : GoString :=
  ofString (coerceUTF8 text)

def ApprovalRule.marshalJSON (rule : ApprovalRule) : Json :=
  .object <|
    member "rule_id" (.str rule.ruleID) ++
    memberOmitEmpty "description" (textJson rule.description) ++
    member "target_mount_path" (textJson rule.targetMountPath) ++
    member "authorized_approvers" (.array (rule.authorizedApprovers.map textJson)) ++
    member "approvals_required" (.number (.int rule.approvalsRequired)) ++
    memberOmitEmpty "slack_webhook_url" (textJson rule.slackWebhookURL) ++
    memberOmitEmpty "created_by_entity_id" (.str rule.createdByEntityID) ++
    memberOmitEmpty "allow_self_approval" (.bool rule.allowSelfApproval)

def ApprovalRule.decodeJSON (j : Json) : Option ApprovalRule := do
  let members ← j.members?
  let ruleID ← readField members "rule_id" Json.readString ""
  let description ← readField members "description" Json.readText []
  let targetMountPath ← readField members "target_mount_path" Json.readText []
  let authorizedApprovers ←
    readField members "authorized_approvers" (Json.readList Json.readText) []
  let approvalsRequired ← readField members "approvals_required" Json.readInt 0
  let slackWebhookURL ← readField members "slack_webhook_url" Json.readText []
  let createdByEntityID ← readField members "created_by_entity_id" Json.readString ""
  let allowSelfApproval ← readField members "allow_self_approval" Json.readBool false
  return { ruleID, description, targetMountPath, authorizedApprovers, approvalsRequired,
           slackWebhookURL, createdByEntityID, allowSelfApproval }

def ApprovalRule.normalize (rule : ApprovalRule) : ApprovalRule :=
  { rule with
    description := coerced rule.description
    targetMountPath := coerced rule.targetMountPath
    authorizedApprovers := rule.authorizedApprovers.map coerced
    slackWebhookURL := coerced rule.slackWebhookURL }

def ApprovalRecord.marshalJSON (record : ApprovalRecord) : Json :=
  .object <|
    member "approver_entity_id" (.str record.approverEntityID) ++
    member "approved_at" (.time record.approvedAt)

def ApprovalRecord.decodeJSON (j : Json) : Option ApprovalRecord := do
  let members ← j.members?
  let approverEntityID ← readField members "approver_entity_id" Json.readString ""
  let approvedAt ← readField members "approved_at" Json.readTime 0
  return { approverEntityID, approvedAt }

def headerJson (header : GoString × List GoString) : String × Json :=
  (coerceUTF8 header.1, .array (header.2.map textJson))

def Json.readHeaders : Json → Option (List (GoString × List GoString))
  | .object members => members.mapM fun entry =>
    (Json.readList Json.readText entry.2).map fun values => (ofString entry.1, values)
  | _ => none

def PendingRequest.jsonMembers (r : PendingRequest) (originalData credentialData : Json) :
    List (String × Json) :=
  member "request_id" (.str r.requestID) ++
  member "rule_id" (.str r.ruleID) ++
  member "original_path" (textJson r.originalPath) ++
  member "original_operation" (.str r.originalOperation.name) ++
  member "original_data" originalData ++
  member "original_headers" (.object (r.originalHeaders.map headerJson)) ++
  member "original_mount_point" (textJson r.originalMountPoint) ++
  member "requester_entity_id" (.str r.requesterEntityID) ++
  member "requester_display_name" (textJson r.requesterDisplayName) ++
  member "approvals" (.array (r.approvals.map ApprovalRecord.marshalJSON)) ++
  member "status" (.str r.status.name) ++
  member "created_at" (.time r.createdAt) ++
  member "expires_at" (.time r.expiresAt) ++
  memberOmitEmpty "credential_data" credentialData ++
  memberOmitEmpty "approved_at" (.time r.approvedAt) ++
  memberOmitEmpty "secret_ttl" (.number (.int r.secretTTL)) ++
  memberOmitEmpty "secret_max_ttl" (.number (.int r.secretMaxTTL)) ++
  memberOmitEmpty "justification" (textJson r.justification)

def PendingRequest.marshalJSON (r : PendingRequest) : Option Json := do
  let originalData ← marshalMap r.originalData
  let credentialData ← marshalMap r.credentialData
  return .object (r.jsonMembers originalData credentialData)

def PendingRequest.decodeJSON (j : Json) : Option PendingRequest := do
  let members ← j.members?
  let requestID ← readField members "request_id" Json.readString ""
  let ruleID ← readField members "rule_id" Json.readString ""
  let originalPath ← readField members "original_path" Json.readText []
  let originalOperation ← readField members "original_operation"
    (fun j => j.readString.bind Operation.ofName) .read
  let originalData ← readField members "original_data" Json.readMap none
  let originalHeaders ← readField members "original_headers" Json.readHeaders []
  let originalMountPoint ← readField members "original_mount_point" Json.readText []
  let requesterEntityID ← readField members "requester_entity_id" Json.readString ""
  let requesterDisplayName ← readField members "requester_display_name" Json.readText []
  let approvals ← readField members "approvals" (Json.readList ApprovalRecord.decodeJSON) []
  let status ← readField members "status" (fun j => j.readString.map Status.ofName) .unknown
  let createdAt ← readField members "created_at" Json.readTime 0
  let expiresAt ← readField members "expires_at" Json.readTime 0
  let credentialData ← readField members "credential_data" Json.readMap none
  let approvedAt ← readField members "approved_at" Json.readTime 0
  let secretTTL ← readField members "secret_ttl" Json.readInt 0
  let secretMaxTTL ← readField members "secret_max_ttl" Json.readInt 0
  let justification ← readField members "justification" Json.readText []
  return { requestID, ruleID, originalPath, originalOperation, originalData, originalHeaders,
           originalMountPoint, requesterEntityID, requesterDisplayName, approvals, status,
           createdAt, expiresAt, credentialData, approvedAt, secretTTL, secretMaxTTL,
           justification }

def HistoryStatus.name : HistoryStatus → String
  | .retrieved => "retrieved"
  | .denied => "denied"
  | .expired => "expired"

def HistoryStatus.ofName (name : String) : Option HistoryStatus :=
  [HistoryStatus.retrieved, .denied, .expired].find? fun status => status.name == name

def ApprovalHistoryEntry.marshalJSON (h : ApprovalHistoryEntry) : Json :=
  .object <|
    member "request_id" (.str h.requestID) ++
    member "rule_id" (.str h.ruleID) ++
    member "original_path" (textJson h.originalPath) ++
    member "requester_entity_id" (.str h.requesterEntityID) ++
    member "requester_display_name" (textJson h.requesterDisplayName) ++
    memberOmitEmpty "justification" (textJson h.justification) ++
    member "status" (.str h.status.name) ++
    member "created_at" (.time h.createdAt) ++
    member "resolved_at" (.time h.resolvedAt) ++
    memberOmitEmpty "resolved_by" (.str h.resolvedBy) ++
    memberOmitEmpty "resolved_by_name" (textJson h.resolvedByName) ++
    member "history_expires_at" (.time h.historyExpiresAt)

def ApprovalHistoryEntry.decodeJSON (j : Json) : Option ApprovalHistoryEntry := do
  let members ← j.members?
  let requestID ← readField members "request_id" Json.readString ""
  let ruleID ← readField members "rule_id" Json.readString ""
  let originalPath ← readField members "original_path" Json.readText []
  let requesterEntityID ← readField members "requester_entity_id" Json.readString ""
  let requesterDisplayName ← readField members "requester_display_name" Json.readText []
  let justification ← readField members "justification" Json.readText []
  let status ← readField members "status"
    (fun j => j.readString.bind HistoryStatus.ofName) .retrieved
  let createdAt ← readField members "created_at" Json.readTime 0
  let resolvedAt ← readField members "resolved_at" Json.readTime 0
  let resolvedBy ← readField members "resolved_by" Json.readString ""
  let resolvedByName ← readField members "resolved_by_name" Json.readText []
  let historyExpiresAt ← readField members "history_expires_at" Json.readTime 0
  return { requestID, ruleID, originalPath, requesterEntityID, requesterDisplayName,
           justification, status, createdAt, resolvedAt, resolvedBy, resolvedByName,
           historyExpiresAt }

/-- The credential after one trip through storage: `omitempty` drops an empty map, which is decoded
as nil. -/
def storedCredential : Option GoMap → Option GoMap
  | none => none
  | some [] => none
  | some entries => some (normalizeEntries entries)

def PendingRequest.normalize (r : PendingRequest) : PendingRequest :=
  { r with
    originalPath := coerced r.originalPath
    originalData := r.originalData.map normalizeEntries
    originalHeaders := r.originalHeaders.map fun header =>
      (coerced header.1, header.2.map coerced)
    originalMountPoint := coerced r.originalMountPoint
    requesterDisplayName := coerced r.requesterDisplayName
    credentialData := storedCredential r.credentialData
    justification := coerced r.justification }

def ApprovalHistoryEntry.normalize (h : ApprovalHistoryEntry) : ApprovalHistoryEntry :=
  { h with
    originalPath := coerced h.originalPath
    requesterDisplayName := coerced h.requesterDisplayName
    justification := coerced h.justification
    resolvedByName := coerced h.resolvedByName }

/-- The entry as it was parked, without votes, status and credential. -/
def PendingRequest.parked (r : PendingRequest) : PendingRequest :=
  { r with
    approvals := []
    status := .pending
    credentialData := none
    approvedAt := 0
    secretTTL := 0
    secretMaxTTL := 0 }

theorem PendingRequest.parked_normalize (r : PendingRequest) :
    r.normalize.parked = r.parked.normalize := rfl

@[simp] theorem PendingRequest.normalize_credentialData (r : PendingRequest) :
    r.normalize.credentialData = storedCredential r.credentialData := rfl

theorem PendingRequest.marshalJSON_eq_none_iff (r : PendingRequest) :
    r.marshalJSON = none ↔
      marshalMap r.originalData = none ∨ marshalMap r.credentialData = none := by
  unfold PendingRequest.marshalJSON
  cases marshalMap r.originalData with
  | none => simp
  | some originalData =>
    cases marshalMap r.credentialData with
    | none | some credentialData => simp

end VaultProofs.ApprovalEntries
