import VaultProofs.LeaseTTLs
import VaultProofs.TokenEffects

/-!
The expiration manager: the stored lease entries and, in memory, the leases that are pending, that
never expire and that could not be revoked, with their counters and what the quota manager is told,
outside restore mode and in the root namespace. Calls are taken one after the other, also those that
a token's revocation makes for other leases.
-/

namespace VaultProofs.LeaseManager

open GoStrings GoTimes LeaseTTLs
open TokenEffects (TokenType)
open VaultEffects (GoError)

structure LeaseOptions where
  ttl : Span := 0
  maxTTL : Span := 0
  renewable : Bool := false

namespace LeaseOptions

def leaseEnabled (l : LeaseOptions) : Bool :=
  0 < l.ttl

def leaseTotal (l : LeaseOptions) : Span :=
  if l.ttl ≤ 0 then 0 else l.ttl

def expirationTime (l : LeaseOptions) (now : Int) : Option Int :=
  if l.leaseEnabled then some (add now l.leaseTotal) else none

end LeaseOptions

structure Auth extends LeaseOptions where
  period : Span := 0
  explicitMaxTTL : Span := 0
  policies : List GoString := []

structure LeaseEntry where
  leaseID : GoString := []
  clientTokenType : TokenType := .default
  secret : Option LeaseOptions := none
  auth : Option Auth := none
  issueTime : Option Int := none
  expireTime : Option Int := none
  lastRenewalTime : Option Int := none
  loginRole : GoString := []
  revokeErr : GoString := []

namespace LeaseEntry

def isIrrevocable (le : LeaseEntry) : Bool :=
  le.revokeErr != []

def nonexpiringToken (le : LeaseEntry) : Bool :=
  match le.auth with
  | none => false
  | some auth => !auth.leaseEnabled && auth.policies == [ofString "root"]

def notRenewable : GoError :=
  .message (ofString "lease is not renewable")

/-- A batch token's lease is not renewable, and that is no error. -/
def renewable (le : LeaseEntry) (now : Int) : Except GoError Bool :=
  if le.isIrrevocable then
    .error (.message (ofString "lease is expired and has failed previous revocation attempts"))
  else
    match le.expireTime with
    | none => .error notRenewable
    | some expireTime =>
      if le.clientTokenType = .batch then .ok false
      else if le.clientTokenType = .ent then
        .error (.message (ofString "enterprise tokens cannot be renewed"))
      else if expireTime < now then .error (.message (ofString "lease expired"))
      else if le.secret.any (fun secret => !secret.renewable) then .error notRenewable
      else if le.auth.any (fun auth => !auth.renewable) then .error notRenewable
      else .ok true

end LeaseEntry

structure PendingInfo where
  cachedLeaseInfo : Option LeaseEntry := none
  revokesAttempted : UInt8 := 0
  loginRole : GoString := []

inductive LeaseAction where
  | created
  | deleted
  deriving DecidableEq

structure QuotaReport where
  action : LeaseAction
  leaseID : GoString
  role : GoString

/-- What the manager keeps in memory, and all it has told the quota manager. -/
structure LeaseMemory where
  pending : AList (fun _ : GoString => PendingInfo) := ∅
  nonexpiring : AList (fun _ : GoString => PendingInfo) := ∅
  irrevocable : AList (fun _ : GoString => LeaseEntry) := ∅
  leaseCount : Int := 0
  irrevocableLeaseCount : Int := 0
  reported : List QuotaReport := []

structure Manager where
  stored : AList (fun _ : GoString => LeaseEntry) := ∅
  memory : LeaseMemory := {}

def leaseTimesForExport (le : LeaseEntry) : LeaseEntry :=
  { issueTime := le.issueTime
    expireTime := le.expireTime
    lastRenewalTime := le.lastRenewalTime
    secret := le.secret.map fun secret => { renewable := secret.renewable, ttl := secret.ttl }
    auth := le.auth.map fun auth =>
      { renewable := auth.renewable, ttl := auth.ttl } }

def inMemoryLeaseInfo (le : LeaseEntry) : LeaseEntry :=
  { leaseTimesForExport le with
    auth := le.auth.map fun auth =>
      { renewable := auth.renewable, ttl := auth.ttl, policies := auth.policies }
    revokeErr := le.revokeErr
    loginRole := le.loginRole }

def quotasHandleLeases (action : LeaseAction) (leaseID role : GoString) (m : LeaseMemory) :
    LeaseMemory :=
  { m with reported := m.reported ++ [⟨action, leaseID, role⟩] }

def removeFromPending (leaseID : GoString) (decrementCounters : Bool) (m : LeaseMemory) :
    LeaseMemory :=
  match m.pending.lookup leaseID with
  | none => m
  | some pending =>
    let removed := { m with pending := m.pending.erase leaseID }
    if decrementCounters then
      let counted := { removed with leaseCount := removed.leaseCount - 1 }
      match pending.cachedLeaseInfo with
      | none => counted
      | some info => quotasHandleLeases .deleted leaseID info.loginRole counted
    else removed

/-- The first branch of `updatePendingInternal`: a token that never expires. -/
def updateNonexpiring (le : LeaseEntry) (m : LeaseMemory) : LeaseMemory :=
  let stored := { m with
    nonexpiring := m.nonexpiring.insert le.leaseID
      { cachedLeaseInfo := some (inMemoryLeaseInfo le) } }
  match m.pending.lookup le.leaseID with
  | none => stored
  | some _ =>
    quotasHandleLeases .deleted le.leaseID le.loginRole
      { stored with
        pending := stored.pending.erase le.leaseID
        leaseCount := stored.leaseCount - 1 }

/-- The second branch: a lease known to be irrevocable. The local pending info stays empty, so a
lease counted for the first time is not reported. -/
def updateIrrevocable (le : LeaseEntry) (m : LeaseMemory) : LeaseMemory :=
  let leaseInPending := (m.pending.lookup le.leaseID).isSome
  let leaseInIrrevocable := (m.irrevocable.lookup le.leaseID).isSome
  let leaseCreated := !(leaseInPending || leaseInIrrevocable)
  let removed := removeFromPending le.leaseID false m
  { removed with
    irrevocable := removed.irrevocable.insert le.leaseID (inMemoryLeaseInfo le)
    irrevocableLeaseCount :=
      if leaseInIrrevocable then removed.irrevocableLeaseCount
      else removed.irrevocableLeaseCount + 1
    leaseCount := if leaseCreated then removed.leaseCount + 1 else removed.leaseCount }

/-- The last branch: a lease with a timer, new or set again. -/
def updateExpiring (le : LeaseEntry) (m : LeaseMemory) : LeaseMemory :=
  match m.pending.lookup le.leaseID with
  | some pending =>
    { m with
      pending := m.pending.insert le.leaseID
        { pending with
          loginRole := le.loginRole
          cachedLeaseInfo := some (inMemoryLeaseInfo le) } }
  | none =>
    quotasHandleLeases .created le.leaseID le.loginRole
      { m with
        pending := m.pending.insert le.leaseID
          { loginRole := le.loginRole
            cachedLeaseInfo := some (inMemoryLeaseInfo le) }
        leaseCount := m.leaseCount + 1 }

def updatePending (le : LeaseEntry) (m : LeaseMemory) : LeaseMemory :=
  if le.expireTime = none ∧ le.nonexpiringToken then updateNonexpiring le m
  else if le.isIrrevocable then updateIrrevocable le m
  else updateExpiring le m

/-- The end of `revokeCommon`, under the lock of the maps. -/
def clearExpirationHandler (leaseID : GoString) (m : LeaseMemory) : LeaseMemory :=
  let removed := removeFromPending leaseID true m
  let cleared := { removed with nonexpiring := removed.nonexpiring.erase leaseID }
  match cleared.irrevocable.lookup leaseID with
  | none => cleared
  | some _ =>
    { cleared with
      irrevocable := cleared.irrevocable.erase leaseID
      irrevocableLeaseCount := cleared.irrevocableLeaseCount - 1 }

def maxRevokeAttempts : UInt8 := 6

def maxIrrevocableErrorLength : Nat := 240

def genericIrrevocableErrorMessage : GoString := ofString "unknown"

def outOfRetriesMessage : GoString := ofString "out of retries"

def irrevocableErrorText (text : GoString) : GoString :=
  (if text.length = 0 then genericIrrevocableErrorMessage else text).take maxIrrevocableErrorLength

/-- The clock, and how the steps outside the manager answer one call. -/
structure CallEnv where
  now : Int := 0
  loadErr : Option GoError := none
  persistErr : Option GoError := none
  deleteErr : Option GoError := none
  indexErr : Option GoError := none
  observationErr : Option GoError := none

def Manager.persist (m : Manager) (le : LeaseEntry) : Manager :=
  { m with stored := m.stored.insert le.leaseID le }

def Manager.update (m : Manager) (le : LeaseEntry) : Manager :=
  { m with memory := updatePending le m.memory }

def loadEntry (env : CallEnv) (leaseID : GoString) (m : Manager) :
    Except GoError (Option LeaseEntry) :=
  match env.loadErr with
  | some err => .error err
  | none => .ok (m.stored.lookup leaseID)

def markLeaseIrrevocable (env : CallEnv) (le : LeaseEntry) (text : GoString) (m : Manager) :
    Manager :=
  if le.isIrrevocable then m
  else
    let marked := { le with revokeErr := irrevocableErrorText text }
    -- the error of this write is dropped
    let kept := if env.persistErr.isSome then m else m.persist marked
    let added := { kept.memory with
      irrevocable := kept.memory.irrevocable.insert le.leaseID (inMemoryLeaseInfo marked)
      irrevocableLeaseCount := kept.memory.irrevocableLeaseCount + 1 }
    let removed := removeFromPending le.leaseID false added
    { kept with memory := { removed with nonexpiring := removed.nonexpiring.erase le.leaseID } }

def onFailure (env : CallEnv) (leaseID text : GoString) (unrecoverable : Bool) (m : Manager) :
    Manager :=
  match m.memory.pending.lookup leaseID with
  | none => m
  | some pending =>
    let attempted := pending.revokesAttempted + 1
    if maxRevokeAttempts ≤ attempted ∨ unrecoverable then
      let text :=
        if maxRevokeAttempts ≤ attempted then outOfRetriesMessage ++ ofString ": " ++ text
        else text
      match loadEntry env leaseID m with
      | .error _ => m
      | .ok none => m
      | .ok (some le) => markLeaseIrrevocable env le text m
    else
      { m with
        memory := { m.memory with
          pending := m.memory.pending.insert leaseID
            { pending with revokesAttempted := attempted } } }

def lazyRevoke (env : CallEnv) (leaseID : GoString) (m : Manager) : Option GoError × Manager :=
  match loadEntry env leaseID m with
  | .error err => (some err, m)
  | .ok none => (none, m)
  | .ok (some le) =>
    let expired := { le with expireTime := some env.now }
    match env.persistErr with
    | some err => (some err, m)
    | none => (env.observationErr, (m.persist expired).update expired)

/-- `backendErr` is the error of the backend, or of the token store for a token. -/
def revokeEntry (le : LeaseEntry) (backendErr : Option GoError) : Option GoError :=
  match le.auth with
  | some _ =>
    if le.clientTokenType = .batch then
      some (.message (ofString "batch tokens cannot be revoked"))
    else if le.clientTokenType = .ent then
      some (.message (ofString
        "enterprise tokens are managed by external IdPs and cannot be revoked by Vault"))
    else backendErr.map (.wrapped "failed to revoke token: ")
  | none => backendErr.map (.wrapped "failed to revoke entry: ")

/-- From the deletion of the entry on. `indexErr` is the error of finding or removing the secret's
token index entry. -/
def finishRevocation (env : CallEnv) (leaseID : GoString) (force skipToken : Bool)
    (le : LeaseEntry) (m : Manager) : Option GoError × Manager :=
  match env.deleteErr with
  | some err => (some err, m)
  | none =>
    let deleted := { m with stored := m.stored.erase le.leaseID }
    match if le.secret.isSome then env.indexErr else none with
    | some err => (some err, deleted)
    | none =>
      (if skipToken || force then none else env.observationErr,
        { deleted with memory := clearExpirationHandler leaseID deleted.memory })

def revokeCommon (env : CallEnv) (leaseID : GoString) (force skipToken : Bool)
    (backendErr : Option GoError) (m : Manager) : Option GoError × Manager :=
  match loadEntry env leaseID m with
  | .error err => (some err, m)
  | .ok none => (none, m)
  | .ok (some le) =>
    match if !skipToken || le.auth.isNone then revokeEntry le backendErr else none with
    | none => finishRevocation env leaseID force skipToken le m
    | some err =>
      if force then finishRevocation env leaseID force skipToken le m else (some err, m)

structure Registration where
  leaseID : GoString
  secret : LeaseOptions
  tokenType : TokenType := .service
  loginRole : GoString := []
  batchExpiry : Except GoError Int := .ok 0
  entExpiry : Option Int := none
  /-- Whether a token's index gets an entry for the lease. -/
  indexed : Bool := true

def constrainToEnt (entExpiry : Option Int) (now : Int) (secret : LeaseOptions)
    (expireTime : Option Int) : LeaseOptions × Option Int :=
  match entExpiry with
  | none => ({ secret with renewable := false }, expireTime)
  | some limit =>
    if expireTime.all (fun t => limit < t) then
      let ttl := sub limit now
      ({ secret with ttl := if ttl < 0 then 0 else ttl, renewable := false }, some limit)
    else ({ secret with renewable := false }, expireTime)

def registeredLease (r : Registration) (now : Int) : Except GoError LeaseEntry :=
  let le : LeaseEntry :=
    { leaseID := r.leaseID
      clientTokenType := r.tokenType
      secret := some r.secret
      loginRole := r.loginRole
      issueTime := some now
      expireTime := r.secret.expirationTime now }
  if r.tokenType = .batch then
    r.batchExpiry.map fun limit =>
      if le.expireTime.any (fun t => limit < t) then { le with expireTime := some limit } else le
  else if r.tokenType = .ent then
    let constrained := constrainToEnt r.entExpiry now r.secret le.expireTime
    .ok { le with secret := some constrained.1, expireTime := constrained.2 }
  else .ok le

def rollbackRegistration (env : CallEnv) (r : Registration) (m : Manager) : Manager :=
  if env.deleteErr.isSome then m else { m with stored := m.stored.erase r.leaseID }

def register (env : CallEnv) (r : Registration) (m : Manager) : Except GoError GoString × Manager :=
  if r.secret.ttl < 0 then
    (.error (.message (ofString "ttl duration must not be less than zero")), m)
  else
    match registeredLease r env.now with
    | .error err => (.error err, rollbackRegistration env r m)
    | .ok le =>
      match env.persistErr with
      | some err => (.error err, rollbackRegistration env r m)
      | none =>
        let persisted := m.persist le
        match env.observationErr with
        | some err => (.error err, rollbackRegistration env r persisted)
        | none =>
          match if r.indexed then env.indexErr else none with
          | some err => (.error err, rollbackRegistration env r persisted)
          | none => (.ok le.leaseID, persisted.update le)

/-- A token to be leased: its lease is named after its path and its salted ID. -/
structure AuthRegistration where
  leaseID : GoString
  auth : Auth
  tokenTTL : Span := 0
  tokenPolicies : List GoString := []
  tokenType : TokenType := .service
  loginRole : GoString := []
  emptyClientToken : Bool := false
  parentReferences : Bool := false

def registeredAuth (r : AuthRegistration) (now : Int) : LeaseEntry :=
  { leaseID := r.leaseID
    auth := some r.auth
    loginRole := r.loginRole
    issueTime := some now
    expireTime := r.auth.expirationTime now }

def registerAuth (env : CallEnv) (r : AuthRegistration) (m : Manager) : Option GoError × Manager :=
  let le := registeredAuth r env.now
  if r.tokenTTL = 0 ∧ le.expireTime = none ∧ r.tokenPolicies ≠ [ofString "root"] then
    (some (.message (ofString "refusing to register a lease for a non-root token with no TTL")), m)
  else if r.tokenType = .batch then
    (some (.message (ofString "cannot register a lease for a batch token")), m)
  else if r.emptyClientToken then
    (some (.message (ofString "cannot register an auth lease with an empty token")), m)
  else if r.parentReferences then
    (some (.message (ofString "path cannot contain parent references")), m)
  else
    match env.persistErr with
    | some err => (some err, m)
    | none =>
      match env.observationErr with
      | some err => (some err, m.persist le)
      | none => (none, (m.persist le).update le)

inductive RenewResponse (α : Type) where
  | nothing
  | refused (text : GoString)
  | renewed (lease : α) (warnings : List TTLWarning)

structure SecretRenewal where
  leaseID : GoString
  increment : Span := 0
  sysView : Option SystemView
  reply : Except GoError (RenewResponse LeaseOptions)
  batchExpiry : Except GoError Int := .ok 0

def secretTTL (sysView : SystemView) (increment : Span) (secret : LeaseOptions)
    (issueTime : Option Int) (now : Int) : Except GoError (Span × List TTLWarning) :=
  calculateTTL sysView increment secret.ttl 0 secret.maxTTL 0 issueTime now

def renewedSecret (r : SecretRenewal) (now : Int) (le : LeaseEntry) (secret : LeaseOptions)
    (ttl : Span) : Except GoError (LeaseEntry × LeaseOptions) :=
  let granted := { secret with ttl := ttl }
  let renewed := { le with
    secret := some granted
    expireTime := granted.expirationTime now
    lastRenewalTime := some now }
  if le.clientTokenType = .batch then
    r.batchExpiry.map fun limit =>
      if renewed.expireTime.any (fun t => limit < t) then
        let capped := { granted with ttl := sub limit now }
        ({ renewed with secret := some capped, expireTime := some limit }, capped)
      else (renewed, granted)
  else .ok (renewed, granted)

/-- From the backend's answer on. -/
def grantSecret (env : CallEnv) (r : SecretRenewal) (sysView : SystemView) (le : LeaseEntry)
    (secret : LeaseOptions) (m : Manager) :
    Except GoError (RenewResponse LeaseOptions) × Manager :=
  match secretTTL sysView r.increment secret le.issueTime env.now with
  | .error err => (.error err, m)
  | .ok (ttl, warnings) =>
    match renewedSecret r env.now le secret ttl with
    | .error err => (.error err, m)
    | .ok (renewed, granted) =>
      match env.persistErr with
      | some err => (.error err, m)
      | none =>
        match env.observationErr with
        | some err => (.error err, m.persist renewed)
        | none => (.ok (.renewed granted warnings), (m.persist renewed).update renewed)

def renew (env : CallEnv) (r : SecretRenewal) (m : Manager) :
    Except GoError (RenewResponse LeaseOptions) × Manager :=
  match loadEntry env r.leaseID m with
  | .error err => (.error err, m)
  | .ok none => (.error (.message (ofString "lease not found")), m)
  | .ok (some le) =>
    match le.renewable env.now with
    | .error err => (.error err, m)
    | .ok _ =>
      if le.secret.isNone then
        let text :=
          if le.auth.isSome then "tokens cannot be renewed through this endpoint"
          else "lease does not correspond to a secret"
        (.ok (.refused (ofString text)), m)
      else
        match r.sysView with
        | none =>
          (.error (.message (ofString "unable to retrieve system view from router")), m)
        | some sysView =>
          match r.reply with
          | .error err => (.error (.wrapped "failed to renew entry: " err), m)
          | .ok .nothing => (.ok .nothing, m)
          -- an error response of the backend is an error of `renewEntry`
          | .ok (.refused text) =>
            (.error (.wrapped "failed to renew entry: " (.message text)), m)
          | .ok (.renewed secret _) => grantSecret env r sysView le secret m

structure TokenRenewal where
  leaseID : GoString
  increment : Span := 0
  sysView : Option SystemView
  reply : Except GoError (RenewResponse Auth)
  groupsErr : Option GoError := none

def tokenTTL (sysView : SystemView) (increment : Span) (auth : Auth)
    (issueTime : Option Int) (now : Int) : Except GoError (Span × List TTLWarning) :=
  calculateTTL sysView increment auth.ttl auth.period auth.maxTTL auth.explicitMaxTTL issueTime now

def invalidRequest (text : String) : GoError :=
  .wrapped "invalid request: " (.message (ofString text))

def renewAuthEntry (le : LeaseEntry) (reply : Except GoError (RenewResponse Auth)) :
    Except GoError (RenewResponse Auth) :=
  if le.clientTokenType = .batch then
    .ok (.refused (ofString "batch tokens cannot be renewed"))
  else if le.clientTokenType = .ent then
    .ok (.refused (ofString "enterprise tokens cannot be renewed"))
  else
    match reply with
    | .error err => .error (.wrapped "failed to renew entry: " err)
    | .ok resp => .ok resp

def renewedToken (now : Int) (le : LeaseEntry) (granted : Auth) : LeaseEntry :=
  { le with
    auth := some granted
    expireTime := granted.expirationTime now
    lastRenewalTime := some now }

def grantToken (env : CallEnv) (r : TokenRenewal) (sysView : SystemView) (le : LeaseEntry)
    (auth : Auth) (m : Manager) : Except GoError (RenewResponse Auth) × Manager :=
  match tokenTTL sysView r.increment auth le.issueTime env.now with
  | .error err => (.error err, m)
  | .ok (ttl, warnings) =>
    match r.groupsErr with
    | some err => (.error err, m)
    | none =>
      let granted := { auth with ttl := ttl }
      let renewed := renewedToken env.now le granted
      match env.persistErr with
      | some err => (.error err, m)
      | none =>
        let updated := (m.persist renewed).update renewed
        match env.observationErr with
        | some err => (.error err, updated)
        | none => (.ok (.renewed granted warnings), updated)

def renewToken (env : CallEnv) (r : TokenRenewal) (m : Manager) :
    Except GoError (RenewResponse Auth) × Manager :=
  match loadEntry env r.leaseID m with
  | .error err => (.error err, m)
  | .ok none => (.error (invalidRequest "invalid lease ID"), m)
  | .ok (some le) =>
    match le.renewable env.now with
    | .error err => (.error (.wrapped "invalid request: " err), m)
    | .ok _ =>
      match renewAuthEntry le r.reply with
      | .error err => (.error err, m)
      | .ok .nothing => (.ok .nothing, m)
      | .ok (.refused text) => (.ok (.refused text), m)
      | .ok (.renewed auth _) =>
        match r.sysView with
        | none =>
          (.error (.message (ofString "unable to retrieve system view from router")), m)
        | some sysView => grantToken env r sysView le auth m

theorem loadEntry_ok {env : CallEnv} {id : GoString} {m : Manager} {found : Option LeaseEntry}
    (h : loadEntry env id m = .ok found) : m.stored.lookup id = found := by
  rw [loadEntry] at h
  split at h
  · cases h
  · cases h
    rfl

theorem expirationTime_le {l : LeaseOptions} {now t : Int} (h : l.expirationTime now = some t) :
    t ≤ now + l.ttl.toInt := by
  rw [LeaseOptions.expirationTime] at h
  split at h
  · rename_i henabled
    have hpos : 0 < l.ttl := of_decide_eq_true henabled
    have hnot : ¬ l.ttl ≤ 0 := by
      rw [span_pos] at hpos
      rw [span_nonpos]
      omega
    rw [LeaseOptions.leaseTotal, if_neg hnot] at h
    cases h
    exact Int.le_refl _
  · cases h

/-- The entry written by a renewal that was granted a TTL at `now`. -/
structure RenewedEntry (now : Int) (ttl : Span) (le renewed : LeaseEntry) : Prop where
  leaseID : renewed.leaseID = le.leaseID
  revokeErr : renewed.revokeErr = le.revokeErr
  issueTime : renewed.issueTime = le.issueTime
  expireTime : ∀ t, renewed.expireTime = some t → t ≤ now + ttl.toInt

theorem renewedSecret_ok {r : SecretRenewal} {now : Int} {le renewed : LeaseEntry}
    {secret granted : LeaseOptions} {ttl : Span}
    (h : renewedSecret r now le secret ttl = .ok (renewed, granted)) :
    RenewedEntry now ttl le renewed := by
  have hgranted : ∀ t, ({ secret with ttl := ttl } : LeaseOptions).expirationTime now = some t →
      t ≤ now + ttl.toInt := fun t ht => expirationTime_le ht
  rw [renewedSecret] at h
  split at h
  · cases hlimit : r.batchExpiry with
    | error err =>
      rw [hlimit] at h
      cases h
    | ok limit =>
      rw [hlimit] at h
      simp only [Except.map] at h
      split at h
      · rename_i hlater
        cases h
        refine ⟨rfl, rfl, rfl, fun t ht => ?_⟩
        cases ht
        obtain ⟨t, ht, hlt⟩ := (Option.any_eq_true _ _).mp hlater
        have hle := hgranted t ht
        have hlt : limit < t := of_decide_eq_true hlt
        omega
      · cases h
        exact ⟨rfl, rfl, rfl, hgranted⟩
  · cases h
    exact ⟨rfl, rfl, rfl, hgranted⟩

/-- What a renewal does to the manager: nothing, or it writes the lease back with what it was
granted. -/
def Renews (env : CallEnv) (id : GoString) (grants : LeaseEntry → Span → Prop) (m n : Manager) :
    Prop :=
  n = m ∨ ∃ le renewed answer ttl, m.stored.lookup id = some le ∧
    le.renewable env.now = .ok answer ∧ grants le ttl ∧ RenewedEntry env.now ttl le renewed ∧
    (n = m.persist renewed ∨ n = (m.persist renewed).update renewed)

/-- `Renew` is granted the TTL that `CalculateTTL` computes from the backend's answer. -/
def SecretRenewal.Grants (r : SecretRenewal) (now : Int) (le : LeaseEntry) (ttl : Span) : Prop :=
  ∃ sysView secret earlier warnings, r.sysView = some sysView ∧
    r.reply = .ok (.renewed secret earlier) ∧
    secretTTL sysView r.increment secret le.issueTime now = .ok (ttl, warnings)

def TokenRenewal.Grants (r : TokenRenewal) (now : Int) (le : LeaseEntry) (ttl : Span) : Prop :=
  ∃ sysView auth earlier warnings, r.sysView = some sysView ∧
    r.reply = .ok (.renewed auth earlier) ∧
    tokenTTL sysView r.increment auth le.issueTime now = .ok (ttl, warnings)

theorem renew_renews (env : CallEnv) (r : SecretRenewal) (m : Manager) :
    Renews env r.leaseID (r.Grants env.now) m (renew env r m).2 := by
  rw [renew]
  split
  · exact .inl rfl
  · exact .inl rfl
  rename_i le hload
  split
  · exact .inl rfl
  rename_i answer hrenewable
  split
  · exact .inl rfl
  split
  · exact .inl rfl
  rename_i sysView hsysView
  split
  · exact .inl rfl
  · exact .inl rfl
  · exact .inl rfl
  rename_i secret earlier hreply
  rw [grantSecret]
  split
  · exact .inl rfl
  rename_i ttl warnings httl
  split
  · exact .inl rfl
  rename_i renewed granted hrenewed
  split
  · exact .inl rfl
  refine .inr ⟨le, renewed, answer, ttl, loadEntry_ok hload, hrenewable,
    ⟨sysView, secret, earlier, warnings, hsysView, hreply, httl⟩,
    renewedSecret_ok hrenewed, ?_⟩
  split
  · exact .inl rfl
  · exact .inr rfl

theorem renewAuthEntry_renewed {le : LeaseEntry} {reply : Except GoError (RenewResponse Auth)}
    {auth : Auth} {warnings : List TTLWarning}
    (h : renewAuthEntry le reply = .ok (.renewed auth warnings)) :
    reply = .ok (.renewed auth warnings) := by
  unfold renewAuthEntry at h
  split at h
  · cases h
  split at h
  · cases h
  · split at h
    · cases h
    · exact h

theorem renewToken_renews (env : CallEnv) (r : TokenRenewal) (m : Manager) :
    Renews env r.leaseID (r.Grants env.now) m (renewToken env r m).2 := by
  rw [renewToken]
  split
  · exact .inl rfl
  · exact .inl rfl
  rename_i le hload
  split
  · exact .inl rfl
  rename_i answer hrenewable
  split
  · exact .inl rfl
  · exact .inl rfl
  · exact .inl rfl
  rename_i auth earlier hreply
  split
  · exact .inl rfl
  rename_i sysView hsysView
  rw [grantToken]
  split
  · exact .inl rfl
  rename_i ttl warnings httl
  split
  · exact .inl rfl
  split
  · exact .inl rfl
  refine .inr ⟨le, renewedToken env.now le { auth with ttl := ttl }, answer, ttl,
    loadEntry_ok hload, hrenewable,
    ⟨sysView, auth, earlier, warnings, hsysView, renewAuthEntry_renewed hreply, httl⟩,
    ⟨rfl, rfl, rfl, fun t ht => expirationTime_le ht⟩, .inr ?_⟩
  split
  · rfl
  · rfl

end VaultProofs.LeaseManager
