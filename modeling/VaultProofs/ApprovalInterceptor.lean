import VaultProofs.VaultEffects

/-!
The interceptor of `approval_core.go`: which requests need approval, the guard against a second
active one, and the parking of a request.
-/

namespace VaultProofs.ApprovalInterceptor

open GoStrings JsonValues ApprovalEntries VaultEffects

def second : Duration := 1000000000

def minute : Duration := 60 * second

def hour : Duration := 60 * minute

def approvalRequestTTL : Duration := hour

def approvalCredentialTTL : Duration := 90 * minute

def approvalHistoryTTL : Duration := 7 * 24 * hour

structure TokenEntry where
  policies : List String

structure MountEntry where
  type : String
  pluginName : String := ""
  leasedPassthrough : Bool := false

inductive MountedBackend where
  | passthrough (generatesLeases : Bool)
  | other

structure SystemView where
  maxLeaseTTL : Duration
  defaultLeaseTTL : Duration

/-- What a call reads of the server but does not change: token store, identity store, router tables,
and library functions that shape texts. A lookup that fails and one that finds nothing are both
`none`, as the code treats them alike. -/
structure Core where
  lookupToken : String → Option TokenEntry
  entityName : String → Option GoString
  matchingMountEntry : GoString → Option MountEntry
  matchingBackend : GoString → Option MountedBackend
  matchingSystemView : GoString → Option SystemView
  materializeToken : Request → Except GoError Request
  foldRune : Char → Char
  quote : GoString → GoString
  urlScheme : GoString → Option GoString
  ttlWarning : Duration → Duration → GoString

def sampleCore : Core where
  lookupToken token := if token = "root" then some ⟨["root"]⟩ else none
  entityName _ := none
  matchingMountEntry _ := some { type := "database" }
  matchingBackend _ := some .other
  matchingSystemView _ := some { maxLeaseTTL := 768 * hour, defaultLeaseTTL := 768 * hour }
  materializeToken req := .ok req
  foldRune := Char.toLower
  quote text := ofString "\"" ++ text ++ ofString "\""
  urlScheme _ := some (ofString "https")
  ttlWarning _ _ := ofString "TTL was capped"

def sampleRule (approvalsRequired : Int) : ApprovalRule where
  ruleID := "db"
  targetMountPath := ofString "database/creds/*"
  authorizedApprovers := [ofString "alice", ofString "bob"]
  approvalsRequired := approvalsRequired

def sampleRequest : Request where
  path := ofString "database/creds/app"
  entityID := "carol"
  clientToken := "s.carol"

def escapeRune (rune : Char) : List Char :=
  if rune = '<' then "&lt;".toList
  else if rune = '>' then "&gt;".toList
  else if rune = '&' then "&amp;".toList
  else if 0x20 ≤ rune.toNat ∧ rune.toNat ≠ 0x7f then [rune]
  else []

-- The limit counts bytes, so the cut can fall inside a rune.
def sanitizeJustification (s : GoString) : GoString :=
  if s = [] then []
  else (ofRunes (trimSpace ((runes s).flatMap escapeRune))).take 1000

def approvalRuleMatchesPath (rule : ApprovalRule) (reqPath : GoString) : Bool :=
  if rule.targetMountPath = ofString "*" then true
  else if hasSuffix rule.targetMountPath (ofString "/*") then
    let target := trimSuffix rule.targetMountPath (ofString "/*")
    reqPath == target || hasPrefix reqPath (target ++ ofString "/")
  else rule.targetMountPath == reqPath

def pendingBlockReply (core : Core) (req : Request) (existing : PendingRequest) : Reply :=
  let text := ofString "you already have a pending approval request for " ++
    core.quote req.path ++ ofString " (request ID: " ++ ofString existing.requestID ++
    ofString ("). Please wait for an admin to review it before submitting again.")
  respondWithStatusCode [(ofString "error", .str text)] req 400

def unreadBlockReply (core : Core) (req : Request) (existing : PendingRequest)
    (now : Time) : Reply :=
  let remaining := approvalCredentialTTL - (now - existing.approvedAt)
  let text := ofString "you have an approved, unread credential for " ++
    core.quote req.path ++ ofString " ready to retrieve (request ID: " ++
    ofString existing.requestID ++ ofString ", expires in " ++
    ofString (toString (remaining.tdiv minute)) ++
    ofString (" minutes). Please visit the 'My Requests' tab to view it before " ++
      "requesting a new one.")
  respondWithStatusCode [(ofString "error", .str text)] req 400

/-- The scan of `checkActiveApprovalRequest`. A stale pending or approved entry is deleted and the
scan goes on; a denied entry stays and does not block. -/
def scanActiveRequests (core : Core) (req : Request) : List String → VaultProg (Option Reply)
  | [] => return none
  | key :: rest => do
      match ← getPendingRequest key with
      | .ok (some existing) =>
        if existing.requesterEntityID ≠ req.entityID ∨ existing.originalPath ≠ req.path then
          scanActiveRequests core req rest
        else
          match existing.status with
          | .pending =>
            if (← timeNow) < existing.expiresAt then
              return some (pendingBlockReply core req existing)
            else
              let _ ← storageDelete (pendingKey key)
              scanActiveRequests core req rest
          | .approved =>
            let now ← timeNow
            if existing.credentialData.isSome ∧ existing.approvedAt ≠ 0 ∧
                now - existing.approvedAt < approvalCredentialTTL then
              return some (unreadBlockReply core req existing now)
            else
              let _ ← storageDelete (pendingKey key)
              scanActiveRequests core req rest
          | _ => scanActiveRequests core req rest
      | _ => scanActiveRequests core req rest

def checkActiveApprovalRequest (core : Core) (req : Request) : VaultProg (Option Reply) := do
  match ← storageList .pending with
  | .error _ => return none
  | .ok keys => scanActiveRequests core req keys

-- The first listed rule that can be read and matches; unreadable rules are skipped.
def findMatchingRule (path : GoString) : List String → VaultProg (Option ApprovalRule)
  | [] => return none
  | key :: rest => do
      match ← getApprovalRule key with
      | .ok (some rule) =>
        if approvalRuleMatchesPath rule path then return some rule
        else findMatchingRule path rest
      | _ => findMatchingRule path rest

def headerTokenByte (byte : UInt8) : Bool :=
  (0x30 ≤ byte && byte ≤ 0x39) || (0x41 ≤ byte && byte ≤ 0x5A) ||
    (0x61 ≤ byte && byte ≤ 0x7A) || byte ∈ ofString "!#$%&'*+-.^_`|~"

def canonicalizeBytes : Bool → GoString → GoString
  | _, [] => []
  | upper, byte :: rest =>
    let byte :=
      if upper && 0x61 ≤ byte && byte ≤ 0x7A then byte - 0x20
      else if !upper && 0x41 ≤ byte && byte ≤ 0x5A then byte + 0x20
      else byte
    byte :: canonicalizeBytes (byte == 0x2D) rest

def canonicalHeaderKey (name : GoString) : GoString :=
  if name.all headerTokenByte then canonicalizeBytes true name else name

def blockedHeaders : List GoString :=
  ["X-Vault-Token", "Authorization", "X-Vault-Wrap-Ttl", "X-Vault-Wrap-Format",
    "X-Vault-Namespace", "X-Vault-Mfa"].map ofString

def safeHeaders (headers : List (GoString × List GoString)) : List (GoString × List GoString) :=
  headers.filter fun header => canonicalHeaderKey header.1 ∉ blockedHeaders

def requestJustification (req : Request) : GoString :=
  match lastValue req.headers (ofString "X-Vault-Justification") with
  | some (value :: _) => sanitizeJustification value
  | _ => []

def parkedRequest (req : Request) (rule : ApprovalRule) (id : String) (now : Time) :
    PendingRequest where
  requestID := id
  ruleID := rule.ruleID
  originalPath := req.path
  originalOperation := req.operation
  originalData := req.data
  originalHeaders := safeHeaders req.headers
  originalMountPoint := req.mountPoint
  requesterEntityID := req.entityID
  requesterDisplayName := req.displayName
  approvals := []
  status := .pending
  createdAt := now
  expiresAt := now + approvalRequestTTL
  justification := requestJustification req

def sampleEntry : PendingRequest :=
  parkedRequest sampleRequest (sampleRule 1) "r1" 0

def PendingRequest.blob (r : PendingRequest) : Blob :=
  match r.marshalJSON with
  | some value => .json value
  | none => .garbage

def ruleWorld : World where
  store := (∅ : Store).insert (configKey "db") (.json (sampleRule 1).marshalJSON)

def parkedWorld (approvalsRequired : Int) : World where
  store := ((∅ : Store).insert (configKey "db")
    (.json (sampleRule approvalsRequired).marshalJSON)).insert (pendingKey "r1")
    (PendingRequest.blob sampleEntry)

def sampleBackend (_ : Request) : Reply :=
  dataReply [(ofString "password", textValue "s3cr3t")]

def sampleEnv : Env := Env.quiet 1 sampleBackend

structure Interception where
  reply : Reply := {}
  intercepted : Bool := false

def parkRequest (req : Request) (rule : ApprovalRule) : VaultProg Interception := do
  match ← generateUUID with
  | .error e =>
    return { reply := failedReply (.wrapped "approval: failed to generate request ID" e) }
  | .ok id =>
    match ← storePendingRequest (parkedRequest req rule id (← timeNow)) with
    | .error e =>
      return { reply := failedReply (.wrapped "approval: failed to store pending request" e) }
    | .ok () =>
      return {
        reply := respondWithStatusCode
          [(ofString "status", textValue "pending"), (ofString "request_id", textValue id),
           (ofString "message", textValue "Request is pending approval")] req 202
        intercepted := true }

-- One active request for each entity and path; callers without entity are not limited.
def parkUnlessActive (core : Core) (req : Request) (rule : ApprovalRule) :
    VaultProg Interception := do
  if req.entityID ≠ "" then
    match ← checkActiveApprovalRequest core req with
    | some block => return { reply := block, intercepted := true }
    | none => parkRequest req rule
  else parkRequest req rule

def exemptPath (path : GoString) : Bool :=
  hasPrefix path (ofString "sys/") || hasPrefix path (ofString "auth/") ||
    hasPrefix path (ofString "cubbyhole/") || hasPrefix path (ofString "identity/")

def interceptedOperation : Operation → Bool
  | .read | .update | .create => true
  | _ => false

def isRootAuth : Option (List String) → Bool
  | none => false
  | some policies => policies.any (· == "root")

def checkNeedsApproval (core : Core) (req : Request) (auth : Option (List String)) :
    VaultProg Interception := do
  if exemptPath req.path then return {}
  else if !interceptedOperation req.operation then return {}
  else if isRootAuth auth then return {}
  else
    match ← storageList .config with
    | .error e => return { reply := failedReply e }
    | .ok ruleKeys =>
      match ← findMatchingRule req.path ruleKeys with
      | none => return {}
      | some rule => parkUnlessActive core req rule

end VaultProofs.ApprovalInterceptor
