import VaultProofs.ApprovalInterceptor

/-!
`handleRequest` once the token, the policies and the quotas have let the request through: the
recover read, the interceptor, the dispatch to the backend and the registration of the lease. `Auth`
blocks, which only the token store may return, and response wrapping are left out.
-/

namespace VaultProofs.RequestRouting

open GoStrings JsonValues VaultEffects ApprovalInterceptor

def truncateToSecond (t : Time) : Time :=
  t - t % second

/-- `framework.CalculateTTL`, with the clock as an argument. The flag says that
the TTL was cut to the maximum. -/
def calculateTTL (sysView : SystemView) (increment backendTTL period backendMaxTTL
    explicitMaxTTL : Duration) (startTime clock : Time) : Except GoError (Duration × Bool) :=
  let now := truncateToSecond clock
  let startTime := if startTime = 0 then now else truncateToSecond startTime
  let maxTTL := sysView.maxLeaseTTL
  let maxTTL := if 0 < backendMaxTTL ∧ backendMaxTTL < maxTTL then backendMaxTTL else maxTTL
  let maxTTL := if 0 < explicitMaxTTL ∧ explicitMaxTTL < maxTTL then explicitMaxTTL else maxTTL
  if maxTTL ≤ 0 then .error (.message (ofString "max TTL must be greater than zero"))
  else
    let ttl :=
      if 0 < period then min period maxTTL
      else if 0 < increment then increment
      else if 0 < backendTTL then backendTTL
      else sysView.defaultLeaseTTL
    -- A periodic lease is bounded only by an explicit maximum.
    let maxValidTime : Option Time :=
      if 0 < period then (if 0 < explicitMaxTTL then some (startTime + explicitMaxTTL) else none)
      else some (startTime + maxTTL)
    match maxValidTime with
    | none => .ok (ttl, decide (maxTTL < period))
    | some maxValidTime =>
      let maxValidTTL := maxValidTime - now
      if maxValidTTL ≤ 0 then
        .error (.message (ofString "past the max TTL, cannot renew"))
      else if maxValidTTL - ttl < 0 then .ok (maxValidTTL, true)
      else .ok (ttl, decide (0 < period ∧ maxTTL < period))

def isSnapshotReadOrList (req : Request) : Bool :=
  (req.operation = .read || req.operation = .list) && req.requiresSnapshotID ≠ ""

inductive LeaseDecision where
  | fault
  | skip
  | register
  deriving DecidableEq

-- KV mounts return the TTL but register no lease unless asked to.
def leaseDecision (core : Core) (req : Request) : LeaseDecision :=
  match core.matchingMountEntry req.path with
  | none => .fault
  | some entry =>
    if entry.type = "kv" ∨ entry.type = "generic" then
      match core.matchingBackend req.path with
      | none => .fault
      | some (.passthrough generatesLeases) => if generatesLeases then .register else .skip
      | some .other =>
        if !entry.leasedPassthrough || isSnapshotReadOrList req then .skip else .register
    else if entry.type = "plugin" ∧ entry.pluginName = "kv" ∧
        (!entry.leasedPassthrough || isSnapshotReadOrList req) then .skip
    else .register

def isRenewPath (path : GoString) : Bool :=
  hasPrefix path (ofString "sys/renew") || hasPrefix path (ofString "sys/leases/renew")

def internalError : Reply :=
  failedReply .internal

-- An `Auth` block from a backend other than the token store is an internal error.
def finishRequest (req : Request) (resp : Option Response) (routeErr : Option GoError) : Reply :=
  match resp with
  | some r =>
    if r.hasAuth && !hasPrefix req.path (ofString "auth/token/") then internalError
    else { resp := resp, err := routeErr }
  | none => { resp := resp, err := routeErr }

/-- The response as it is registered, with the calculated TTL and a warning if it was cut. -/
def withTTL (core : Core) (resp : Response) (secret : Secret) (ttl : Duration)
    (capped : Bool) : Response :=
  { resp with
    secret := some { secret with ttl := ttl }
    warnings := resp.warnings ++ (if capped then [core.ttlWarning secret.ttl ttl] else []) }

def registerSecret (core : Core) (req : Request) (resp : Response) (secret : Secret)
    (routeErr : Option GoError) : VaultProg Reply := do
  match core.materializeToken req with
  | .error _ => return internalError
  | .ok registerReq =>
    if isSnapshotReadOrList req then
      return { resp := some
                 { data := [(ofString "error",
                     textValue "cannot register lease for snapshot read or list")] }
               err := some .internal }
    else
      match core.matchingSystemView req.path with
      | none => return internalError
      | some sysView =>
        match calculateTTL sysView 0 secret.ttl 0 secret.maxTTL 0 0 (← timeNow) with
        | .error e => return failedReply e
        | .ok (ttl, capped) =>
          let resp := withTTL core resp secret ttl capped
          match ← registerLease registerReq resp with
          | .error _ => return internalError
          | .ok leaseID =>
            let secret := { secret with ttl := ttl, leaseID := leaseID }
            return finishRequest req (some { resp with secret := some secret }) routeErr

def settleResponse (core : Core) (req : Request) (reply : Reply) : VaultProg Reply :=
  match reply.resp with
  | none => return finishRequest req none reply.err
  | some resp =>
    match resp.secret with
    | none => return finishRequest req (some resp) reply.err
    | some secret =>
      if isRenewPath req.path then return finishRequest req (some resp) reply.err
      else
        match leaseDecision core req with
        | .fault => return internalError
        | .skip =>
          return finishRequest req
            (some { resp with secret := some { secret with renewable := false } }) reply.err
        | .register => registerSecret core req resp secret reply.err

def routeRequest (core : Core) (req : Request) : VaultProg Reply := do
  settleResponse core req (← doRouting req)

def interceptOrRoute (core : Core) (bypass : Bool) (auth : Option (List String))
    (req : Request) : VaultProg Reply := do
  if bypass then routeRequest core req
  else
    let check ← checkNeedsApproval core req auth
    if check.intercepted || check.reply.err.isSome then return check.reply
    else routeRequest core req

/-- `bypass` is the context mark of a re-injected request, `auth` the policies of
the authenticated token. -/
def handleRequest (core : Core) (bypass : Bool) (auth : Option (List String))
    (req : Request) : VaultProg Reply := do
  if req.operation = .recover then
    let source := if req.recoverSourcePath = [] then req.path else req.recoverSourcePath
    let reply ← doRouting { req with operation := .read, path := source }
    match reply.err, reply.resp with
    | some e, _ => return failedReply e
    | none, none => return errorReply (ofString "no data in the snapshot")
    | none, some resp =>
      if resp.isError then return { resp := some resp }
      else interceptOrRoute core bypass auth { req with data := some resp.data }
  else interceptOrRoute core bypass auth req

end VaultProofs.RequestRouting
