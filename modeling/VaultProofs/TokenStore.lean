import VaultProofs.TokenEffects

/-!
The token store: looking tokens up, counting their uses, creating and revoking them. A lookup that
finds a token without its lease hands it to the expiration manager, which revokes its tree, so
lookups and revocations call each other: the functions take the tree revocation as an argument, and
`revokeTree` ties the knot for a given depth.
-/

namespace VaultProofs.TokenStore

open GoStrings ProgramOutcomes VaultEffects TokenEffects

def errorf (text : String) : GoError := .message (ofString text)

def wrapErr {α : Type} (context : String) (x : TokenM α) : TokenM α :=
  mapError (.wrapped context) x

def namespaceByID (nsID : GoString) : TokenM Unit :=
  perform (.namespaceByID nsID)

def saltID (id : GoString) : TokenM SaltedID :=
  perform (.saltID id)

def writeParentIndex (lookup : GoString → TokenM (Option TokenEntry)) (entry : TokenEntry)
    (saltedID : SaltedID) (writeSecondary : Bool) : TokenM Unit :=
  if writeSecondary = false ∨ entry.parent = [] then pure ()
  else do
    match ← wrapErr "failed to lookup parent" (lookup entry.parent) with
    | none => throw (errorf "parent token not found")
    | some parent => do
        namespaceByID parent.namespaceID
        let parentSaltedID ← saltID entry.parent
        wrapErr "failed to persist entry" (perform (.putIndex parentSaltedID saltedID))

-- The index is written before the entry.
def storeCommon (lookup : GoString → TokenM (Option TokenEntry)) (entry : TokenEntry)
    (writeSecondary : Bool) : TokenM Unit := do
  namespaceByID entry.namespaceID
  let saltedID ← saltID entry.id
  writeParentIndex lookup entry saltedID writeSecondary
  wrapErr "failed to persist entry" (perform (.putEntry entry))

def store (entry : TokenEntry) : TokenM Unit :=
  storeCommon (fun _ => return none) entry false

def upgraded (stored : TokenEntry) : TokenEntry :=
  { stored with
    namespaceID := rootNamespaceID
    namespace_root := rootNamespaceID_root
    type := if stored.type = .default then .service else stored.type
    displayName :=
      if stored.displayName = [] then stored.displayNameDeprecated else stored.displayName
    displayNameDeprecated := []
    creationTime :=
      if stored.creationTime = 0 then stored.creationTimeDeprecated else stored.creationTime
    creationTimeDeprecated := 0
    explicitMaxTTL :=
      if stored.explicitMaxTTL = 0 then stored.explicitMaxTTLDeprecated else stored.explicitMaxTTL
    explicitMaxTTLDeprecated := 0
    numUses :=
      if stored.numUsesDeprecated ≠ 0 ∧
          (stored.numUses = 0 ∨ stored.numUsesDeprecated < stored.numUses) then
        stored.numUsesDeprecated
      else stored.numUses
    numUsesDeprecated := 0 }

def persistNeeded (stored : TokenEntry) : Bool :=
  stored.displayNameDeprecated ≠ [] ∨ stored.creationTimeDeprecated ≠ 0 ∨
    stored.explicitMaxTTLDeprecated ≠ 0 ∨ stored.numUsesDeprecated ≠ 0

def persistUpgrade (stored : TokenEntry) : TokenM Unit :=
  if persistNeeded stored then wrapErr "failed to persist token upgrade" (store (upgraded stored))
  else pure ()

def fetchLeaseTimesByToken (entry : TokenEntry) : TokenM (Option Lease) := do
  namespaceByID entry.namespaceID
  let saltedID ← saltID entry.id
  perform (.loadLease ⟨entry.path, saltedID⟩)

def createOrFetchRevocationLeaseByToken (entry : TokenEntry) : TokenM LeaseID := do
  namespaceByID entry.namespaceID
  let saltedID ← saltID entry.id
  match ← perform (.loadLease ⟨entry.path, saltedID⟩) with
  | some _ => return ⟨entry.path, saltedID⟩
  | none =>
    if containsText entry.path (ofString "..") then
      throw (errorf "path cannot contain parent references")
    else do
      let now ← perform .timeNow
      perform (.putLease ⟨entry.path, saltedID⟩ ⟨entry.id, now + 1⟩)
      return ⟨entry.path, saltedID⟩

section lookups

variable (revokeTree : GoString → TokenM Unit)

/-- The part of `revokeCommon` for the lease of a token. -/
def revokeCommon (leaseID : LeaseID) (skipToken : Bool) : TokenM Unit := do
  match ← perform (.loadLease leaseID) with
  | none => return ()
  | some lease =>
    if skipToken then perform (.deleteLease leaseID)
    else do
      wrapErr "failed to revoke token" (revokeTree lease.clientToken)
      perform (.deleteLease leaseID)

/-- An expiring token without a lease is revoked at once. -/
def revokeWithoutLease (entry : TokenEntry) : TokenM Unit := do
  namespaceByID entry.namespaceID
  let leaseID ← createOrFetchRevocationLeaseByToken entry
  revokeCommon revokeTree leaseID false

def checkLease (entry : TokenEntry) (tainted : Bool) : TokenM (Option TokenEntry) := do
  match ← wrapErr "failed to fetch lease times" (fetchLeaseTimesByToken entry) with
  | none => do
      revokeWithoutLease revokeTree entry
      return none
  | some lease => do
      let now ← perform .timeNow
      return if now ≤ lease.expireTime ∨ tainted = true then some entry else none

def lookupStored (stored : TokenEntry) (tainted : Bool) : TokenM (Option TokenEntry) :=
  if (upgraded stored).isRoot = true ∧ (upgraded stored).ttl = 0 then do
    persistUpgrade stored
    return some (upgraded stored)
  else if (upgraded stored).isRoot = true then return some (upgraded stored)
  else if (upgraded stored).type = .ent then return some (upgraded stored)
  else do
    let ret ← checkLease revokeTree (upgraded stored) tainted
    persistUpgrade stored
    return ret

def lookupSalted (key : SaltedID) (tainted : Bool) : TokenM (Option TokenEntry) := do
  match ← wrapErr "failed to read entry" (perform (.getEntry key)) with
  | none => return none
  | some stored =>
    if stored.numUses < 0 ∧ tainted = false then return none
    else lookupStored revokeTree stored tainted

def lookupInternal (id : GoString) (tainted : Bool) : TokenM (Option TokenEntry) := do
  let key ← saltID id
  lookupSalted revokeTree key tainted

def lookup (id : GoString) : TokenM (Option TokenEntry) :=
  if id = [] then throw (errorf "cannot lookup blank token")
  else do
    perform (.rLock id)
    let result ← capture (lookupInternal revokeTree id false)
    perform (.rUnlock id)
    resume result

def controlGroupPolicyName : GoString := ofString "control-group"

def decremented (entry : TokenEntry) : TokenEntry :=
  { entry with
    numUses := if entry.numUses = 1 then tokenRevocationPending else entry.numUses - 1 }

def useStored (id : GoString) : TokenM TokenEntry := do
  match ← wrapErr "failed to refresh entry" (lookupInternal revokeTree id false) with
  | none => throw (errorf "token not found or fully used already")
  | some te => do
      store (decremented te)
      return decremented te

def useToken : Option TokenEntry → TokenM TokenEntry
  | none => throw (errorf "invalid token entry provided for use count decrementing")
  | some te =>
    if te.numUses = 0 then return te
    else if te.policies = [controlGroupPolicyName] then return te
    else do
      perform (.lock te.id)
      let result ← capture (useStored revokeTree te.id)
      perform (.unlock te.id)
      resume result

def destroyCubbyhole (entry : TokenEntry) : TokenM Unit :=
  if entry.namespaceID = rootNamespaceID ∧ isServiceToken entry.id = false then do
    let saltedID ← saltID entry.id
    perform (.clearCubbyhole (.salted saltedID))
  else if entry.cubbyholeID = [] then throw (errorf "missing cubbyhole ID while destroying")
  else perform (.clearCubbyhole (.plain entry.cubbyholeID))

/-- `ExpirationManager.RevokeByToken`, which reads the ID, the namespace and the path
of the entry. -/
def revokeByToken (id namespaceID path : GoString) : TokenM Unit := do
  namespaceByID namespaceID
  let saltedID ← saltID id
  wrapErr "failed to scan for leases" (perform (.revokeLeases saltedID))
  if path = [] then pure ()
  else do
    let saltedID ← saltID id
    revokeCommon revokeTree ⟨path, saltedID⟩ true

def clearParentIndex (saltedID : SaltedID) (entry : TokenEntry) : TokenM Unit :=
  if entry.parent = [] then pure ()
  else do
    let parentSaltedID ← saltID entry.parent
    wrapErr "failed to delete entry" (perform (.deleteIndex (.below parentSaltedID saltedID)))

def clearAccessor (entry : TokenEntry) : TokenM Unit :=
  if entry.accessor = [] then pure ()
  else do
    let accessorSaltedID ← saltID entry.accessor
    wrapErr "failed to delete entry" (perform (.deleteAccessor accessorSaltedID))

def orphaned (entry : TokenEntry) : TokenEntry :=
  { entry with parent := [] }

-- The entry of the child is read before its lock is taken.
def orphanChild (child : SaltedID) : TokenM Unit := do
  match ← wrapErr "failed to get child token" (lookupSalted revokeTree child true) with
  | none => wrapErr "failed to delete child entry" (perform (.deleteIndex (.top child)))
  | some entry => do
      perform (.lock entry.id)
      let result ← capture (store (orphaned entry))
      perform (.unlock entry.id)
      wrapErr "failed to update child token" (resume result)
      wrapErr "failed to delete child entry" (perform (.deleteIndex (.top child)))

def orphanChildren : List SaltedID → TokenM Unit
  | [] => pure ()
  | child :: rest => do
      orphanChild revokeTree child
      orphanChildren rest

def marked (entry : TokenEntry) : TokenEntry :=
  { entry with numUses := tokenRevocationPending }

-- On failure the flag is cleared under the ID, not under the salted ID.
def markRevoked (entry : TokenEntry) : TokenM TokenEntry :=
  if entry.numUses = tokenRevocationPending then return entry
  else do
    match ← capture (store (marked entry)) with
    | .ok _ => return marked entry
    | .error e => do
        perform (.storePending (.plain entry.id) false)
        throw e

/-- The entry to revoke, marked: `revokeInternal` before it defers the removal of the entry. -/
def findRevoked (saltedID : SaltedID) : TokenM (Option TokenEntry) := do
  match ← lookupSalted revokeTree saltedID true with
  | none => return none
  | some found => do
      let entry ← markRevoked found
      namespaceByID entry.namespaceID
      return some entry

def removeReferences (saltedID : SaltedID) (entry : TokenEntry) (skipOrphan : Bool) :
    TokenM Unit := do
  destroyCubbyhole entry
  revokeByToken revokeTree entry.id entry.namespaceID entry.path
  clearParentIndex saltedID entry
  clearAccessor entry
  if skipOrphan then pure ()
  else do
    let children ← wrapErr "failed to scan for children" (perform (.listChildren saltedID))
    orphanChildren revokeTree children

/-- The function that `revokeInternal` defers. -/
def settleRevocation (saltedID : SaltedID) (ret : Except GoError Unit) : TokenM Unit := do
  match ← capture (do
      resume ret
      wrapErr "failed to delete entry" (perform (.deleteEntry saltedID))) with
  | .ok _ => perform (.deletePending (.salted saltedID))
  | .error e => do
      perform (.storePending (.salted saltedID) false)
      throw e

/-- What `revokeInternal` does once it may proceed. -/
def revokeFlagged (saltedID : SaltedID) (skipOrphan : Bool) : TokenM Unit := do
  match ← findRevoked revokeTree saltedID with
  | none => return ()
  | some entry => do
      let ret ← capture (removeReferences revokeTree saltedID entry skipOrphan)
      settleRevocation saltedID ret

def revokeInternal (saltedID : SaltedID) (skipOrphan : Bool) : TokenM Unit := do
  match ← perform (.loadOrStorePending (.salted saltedID)) with
  | some true => return ()
  | _ => revokeFlagged revokeTree saltedID skipOrphan

/-- The children that were never on the top of the stack; the index entries of the
others are deleted. -/
def unseenChildren (id : SaltedID) (seenIDs : List SaltedID) :
    List SaltedID → TokenM (List SaltedID)
  | [] => return []
  | child :: rest =>
    if child ∈ seenIDs then do
      wrapErr "failed to delete entry" (perform (.deleteIndex (.below id child)))
      unseenChildren id seenIDs rest
    else do
      let children ← unseenChildren id seenIDs rest
      return child :: children

def fuelExhausted : GoError := errorf "out of fuel"

-- The top of the stack comes first, so the children are pushed in reverse.
def revokeTreeLoop : Nat → List SaltedID → List SaltedID → TokenM Unit
  | 0, _, _ => throw fuelExhausted
  | _ + 1, [], _ => return ()
  | fuel + 1, id :: dfs, seenIDs => do
      let childrenRaw ← wrapErr "failed to scan for children" (perform (.listChildren id))
      let children ← unseenChildren id (id :: seenIDs) childrenRaw
      if children = [] then do
        wrapErr "failed to revoke entry" (revokeInternal revokeTree id true)
        if dfs = [] then return () else revokeTreeLoop fuel dfs (id :: seenIDs)
      else revokeTreeLoop fuel (children.reverse ++ id :: dfs) (id :: seenIDs)

def revokeTreeInternal (fuel : Nat) (id : SaltedID) : TokenM Unit := do
  match ← lookupSalted revokeTree id true with
  | none => revokeTreeLoop revokeTree fuel [id] []
  | some te => do
      namespaceByID te.namespaceID
      revokeTreeLoop revokeTree fuel [id] []

def revokeOrphan (id : GoString) : TokenM Unit :=
  if id = [] then throw (errorf "cannot revoke blank token")
  else do
    let saltedID ← saltID id
    revokeInternal revokeTree saltedID false

def created (entry : TokenEntry) : TokenEntry :=
  { entry with type := if entry.type = .default then .service else entry.type }

def checkCustomID (entry : TokenEntry) (userSelectedID : Bool) : TokenM Unit :=
  if userSelectedID = false ∨ entry.type = .ent then pure ()
  else if hasPrefix entry.id (ofString "hvs.") then
    throw (errorf "custom token ID cannot have the 'hvs.' prefix")
  else if hasPrefix entry.id (ofString "s.") then
    throw (errorf "custom token ID cannot have the 's.' prefix")
  else if containsText entry.id (ofString ".") then
    throw (errorf "custom token ID cannot have a '.' in the value")
  else pure ()

-- A failing lookup counts as one that finds nothing.
def checkDuplicate (entry : TokenEntry) (userSelectedID : Bool) : TokenM Unit :=
  if userSelectedID = true ∨ entry.type = .ent then do
    match ← capture (lookupInternal revokeTree entry.id true) with
    | .ok (some _) => throw (errorf "cannot create a token with a duplicate ID")
    | _ => return ()
  else pure ()

def createAccessor (entry : TokenEntry) : TokenM Unit := do
  namespaceByID entry.namespaceID
  let saltedID ← saltID entry.accessor
  wrapErr "failed to persist accessor index entry"
    (perform (.putAccessor saltedID (.entry entry.id entry.accessor entry.namespaceID)))

/-- `create` for the types default, service and ent. The entry already has the ID, the cubbyhole ID
and the accessor that are drawn at random. -/
def create (entry : TokenEntry) (userSelectedID : Bool) : TokenM Unit := do
  namespaceByID entry.namespaceID
  checkCustomID (created entry) userSelectedID
  checkDuplicate revokeTree (created entry) userSelectedID
  createAccessor (created entry)
  storeCommon (lookup revokeTree) (created entry) true

end lookups

/-- Tree revocation as the expiration manager calls it, with the nested calls cut
off at the depth. -/
def revokeTree (fuel : Nat) : Nat → GoString → TokenM Unit
  | 0, _ => throw fuelExhausted
  | depth + 1, clientToken =>
    if clientToken = [] then throw (errorf "cannot tree-revoke blank token")
    else do
      let saltedID ← saltID clientToken
      revokeTreeInternal (revokeTree fuel depth) fuel saltedID

end VaultProofs.TokenStore
