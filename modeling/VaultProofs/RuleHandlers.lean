import VaultProofs.ApprovalHandlers

/-!
The handlers of `sys/approvals/config` and `sys/approvals/requires-approval`.
-/

namespace VaultProofs.RuleHandlers

open GoStrings JsonValues ApprovalEntries VaultEffects ApprovalInterceptor ApprovalHandlers

/-- The fields of a rule write, each present when the request sets it. -/
structure RuleFields where
  description : Option GoString := none
  targetMountPath : Option GoString := none
  authorizedApprovers : Option (List GoString) := none
  approvalsRequired : Option Int := none
  slackWebhookURL : Option GoString := none
  allowSelfApproval : Option Bool := none

def handleApprovalRuleList : VaultProg Reply := do
  match ← storageList .config with
  | .error e => return failedReply e
  | .ok keys => return dataReply [(ofString "keys", .slice (keys.map textValue))]

def ruleData (rule : ApprovalRule) : GoMap :=
  [(ofString "rule_id", textValue rule.ruleID),
   (ofString "description", .str rule.description),
   (ofString "target_mount_path", .str rule.targetMountPath),
   (ofString "authorized_approvers", .slice (rule.authorizedApprovers.map .str)),
   (ofString "approvals_required", intValue rule.approvalsRequired),
   (ofString "slack_webhook_url", .str rule.slackWebhookURL),
   (ofString "created_by_entity_id", textValue rule.createdByEntityID),
   (ofString "allow_self_approval", .bool rule.allowSelfApproval)]

def handleApprovalRuleRead (core : Core) (ruleID : String) : VaultProg Reply := do
  match ← getApprovalRule ruleID with
  | .error e => return failedReply e
  | .ok none =>
    return errorReply (ofString "no approval rule found with ID " ++ quoteID core ruleID)
  | .ok (some rule) => return dataReply (ruleData rule)

def badWebhook (core : Core) : Option GoString → Bool
  | some rawURL => rawURL ≠ [] && core.urlScheme rawURL ≠ some (ofString "https")
  | none => false

-- The checks in the order of the code; the first that fails decides the reply.
def updatedRule (core : Core) (rule : ApprovalRule) (fields : RuleFields) :
    Except String ApprovalRule :=
  let updated : ApprovalRule :=
    { rule with
      description := fields.description.getD rule.description
      targetMountPath := fields.targetMountPath.getD rule.targetMountPath
      authorizedApprovers := fields.authorizedApprovers.getD rule.authorizedApprovers
      approvalsRequired := fields.approvalsRequired.getD rule.approvalsRequired
      slackWebhookURL := fields.slackWebhookURL.getD rule.slackWebhookURL
      allowSelfApproval := fields.allowSelfApproval.getD rule.allowSelfApproval }
  if fields.approvalsRequired.any (· < 1) then .error "approvals_required must be >= 1"
  else if badWebhook core fields.slackWebhookURL then
    .error "slack_webhook_url must use the https:// scheme"
  else if updated.targetMountPath = [] then .error "target_mount_path is required"
  else if updated.authorizedApprovers = [] then
    .error "authorized_approvers must contain at least one entity ID"
  else .ok updated

def newRule (req : Request) (ruleID : String) : ApprovalRule where
  ruleID := ruleID
  approvalsRequired := 1
  createdByEntityID := req.entityID

def handleApprovalRuleWrite (core : Core) (req : Request) (ruleID : String)
    (fields : RuleFields) : VaultProg Reply := do
  if ruleID = "" then return errorReply (ofString "rule_id is required")
  else
    match ← getApprovalRule ruleID with
    | .error e => return failedReply e
    | .ok existing =>
      match updatedRule core (existing.getD (newRule req ruleID)) fields with
      | .error text => return errorReply (ofString text)
      | .ok rule =>
        match ← putApprovalRule rule with
        | .error e => return failedReply e
        | .ok () => return {}

def sweepKeys (ruleID : String) : List String → VaultProg Unit
  | [] => return ()
  | key :: rest => do
      match ← getPendingRequest key with
      | .ok (some r) =>
        if r.ruleID = ruleID then
          let _ ← storageDelete (pendingKey key)
          sweepKeys ruleID rest
        else sweepKeys ruleID rest
      | _ => sweepKeys ruleID rest

def sweepPendingRequestsByRule (ruleID : String) : VaultProg (Except GoError Unit) := do
  match ← storageList .pending with
  | .error e => return .error e
  | .ok keys =>
    sweepKeys ruleID keys
    return .ok ()

-- A failed sweep does not stop the deletion of the rule.
def handleApprovalRuleDelete (ruleID : String) : VaultProg Reply := do
  let _ ← sweepPendingRequestsByRule ruleID
  match ← storageDelete (configKey ruleID) with
  | .error e => return failedReply e
  | .ok () => return {}

def handleApprovalRequiresApproval (path : GoString) : VaultProg Reply := do
  if path = [] then return errorReply (ofString "path is required")
  else
    match ← storageList .config with
    | .error e => return failedReply e
    | .ok ruleKeys =>
      match ← findMatchingRule path ruleKeys with
      | some rule =>
        return dataReply [(ofString "requires_approval", .bool true),
          (ofString "rule_id", textValue rule.ruleID)]
      | none => return dataReply [(ofString "requires_approval", .bool false)]

end VaultProofs.RuleHandlers
