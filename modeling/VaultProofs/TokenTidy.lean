import VaultProofs.TokenStore

/-!
`handleTidy`, the clean-up of the token store: index entries of tokens that are gone are deleted,
children of a missing parent become orphans, and a cubbyhole that no accessor leads to is destroyed.
Errors are collected, and the work goes on with the next item.
-/

namespace VaultProofs.TokenTidy

open GoStrings ProgramOutcomes TokenEffects TokenStore
open VaultEffects (GoError)

structure AccessorEntry where
  tokenID : GoString := []
  accessorID : GoString := []
  namespaceID : GoString

def rootIfBlank (namespaceID : GoString) : GoString :=
  if namespaceID = [] then rootNamespaceID else namespaceID

def failure {α : Type} (context : String) : Except GoError α → List GoError
  | .ok _ => []
  | .error e => [.wrapped context e]

variable (revokeTree : GoString → TokenM Unit)

/-- `lookupByAccessor` with a salted accessor. A value that is not a record is taken
for the ID of the token. -/
def lookupByAccessor (key : SaltedID) (tainted : Bool) : TokenM (Option AccessorEntry) := do
  match ← wrapErr "failed to read index using accessor" (perform (.getAccessor key)) with
  | none => return none
  | some (.entry tokenID accessorID namespaceID) =>
    return some ⟨tokenID, accessorID, rootIfBlank namespaceID⟩
  | some (.plain tokenID) => do
      match ← wrapErr "failed to look up token using accessor index"
          (lookupInternal revokeTree tokenID tainted) with
      | none => return some { namespaceID := rootNamespaceID }
      | some te => return some ⟨te.id, te.accessor, rootIfBlank te.namespaceID⟩

def foundOrNil : Except GoError (Option TokenEntry) → Option TokenEntry
  | .ok found => found
  | .error _ => none

-- As in `orphanChild` the entry is read before its lock is taken.
def tidyChild (parent : SaltedID) (parentExists : Bool) (child : SaltedID) :
    TokenM (List GoError) := do
  let found ← capture (lookupSalted revokeTree child true)
  match foundOrNil found, parentExists with
  | some te, false => do
      perform (.lock te.id)
      let result ← capture (store (orphaned te))
      perform (.unlock te.id)
      return failure "failed to convert child token into an orphan token" result
  | none, _ => do
      let result ← capture (perform (.deleteIndex (.below parent child)))
      return failure "failed to delete secondary index" result
  | some _, true => return []

def tidyChildren (parent : SaltedID) (parentExists : Bool) :
    List SaltedID → TokenM (List GoError)
  | [] => return []
  | child :: rest => do
      let errors ← tidyChild revokeTree parent parentExists child
      let more ← tidyChildren parent parentExists rest
      return errors ++ more

def tidyParent (parent : SaltedID) : TokenM (List GoError) := do
  match ← capture (perform (.listChildren parent)) with
  | .error e => return [.wrapped "failed to read secondary index" e]
  | .ok children => do
      let found ← capture (lookupSalted revokeTree parent true)
      tidyChildren revokeTree parent (foundOrNil found).isSome children

def tidyParents : List SaltedID → TokenM (List GoError)
  | [] => return []
  | parent :: rest => do
      let errors ← tidyParent revokeTree parent
      let more ← tidyParents rest
      return errors ++ more

/-- What the pass over the accessors collects: errors, and the keys of the cubbyholes of a token. -/
structure AccessorFindings where
  errors : List GoError := []
  validCubbyholeKeys : List CubbyholeKey := []

def AccessorFindings.append (a b : AccessorFindings) : AccessorFindings :=
  ⟨a.errors ++ b.errors, a.validCubbyholeKeys ++ b.validCubbyholeKeys⟩

def removeInvalidAccessor (saltedAccessor : SaltedID) (accessorEntry : AccessorEntry) :
    TokenM AccessorFindings := do
  match ← capture (revokeByToken revokeTree accessorEntry.tokenID accessorEntry.namespaceID []) with
  | .error e => return { errors := [.wrapped "failed to revoke leases of expired token" e] }
  | .ok _ => do
      let result ← capture (perform (.deleteAccessor saltedAccessor))
      return { errors := failure "failed to delete accessor entry" result }

def keepCubbyhole (te : TokenEntry) : TokenM AccessorFindings :=
  if te.namespaceID = rootNamespaceID ∧ isServiceToken te.id = false then do
    match ← capture (saltID te.id) with
    | .error e => return { errors := [.wrapped "failed to create salted token id" e] }
    | .ok saltedID => return { validCubbyholeKeys := [.salted saltedID] }
  else if te.cubbyholeID = [] then
    return { errors := [errorf "missing cubbyhole ID for a valid token"] }
  else return { validCubbyholeKeys := [.plain te.cubbyholeID] }

def tidyAccessorToken (saltedAccessor : SaltedID) (accessorEntry : AccessorEntry) :
    TokenM AccessorFindings := do
  perform (.rLock accessorEntry.tokenID)
  let found ← capture (lookupInternal revokeTree accessorEntry.tokenID true)
  perform (.rUnlock accessorEntry.tokenID)
  match found with
  | .error e => return { errors := [.wrapped "failed to lookup tainted ID" e] }
  | .ok none => removeInvalidAccessor revokeTree saltedAccessor accessorEntry
  | .ok (some te) => keepCubbyhole te

-- An accessor without a token is deleted, and then treated as one of a missing token.
def tidyAccessorEntry (saltedAccessor : SaltedID) (accessorEntry : AccessorEntry) :
    TokenM AccessorFindings :=
  if accessorEntry.tokenID = [] then do
    match ← capture (perform (.deleteAccessor saltedAccessor)) with
    | .error e => return { errors := [.wrapped "failed to delete the accessor index" e] }
    | .ok _ => tidyAccessorToken revokeTree saltedAccessor accessorEntry
  else tidyAccessorToken revokeTree saltedAccessor accessorEntry

def tidyAccessor (saltedAccessor : SaltedID) : TokenM AccessorFindings := do
  match ← capture (lookupByAccessor revokeTree saltedAccessor true) with
  | .error e => return { errors := [.wrapped "failed to read the accessor index" e] }
  | .ok none => return { errors := [errorf "failed to read the accessor index: invalid accessor"] }
  | .ok (some accessorEntry) => tidyAccessorEntry revokeTree saltedAccessor accessorEntry

def tidyAccessors : List SaltedID → TokenM AccessorFindings
  | [] => return {}
  | saltedAccessor :: rest => do
      let findings ← tidyAccessor revokeTree saltedAccessor
      let more ← tidyAccessors rest
      return findings.append more

def tidyCubbyhole (validCubbyholeKeys : List CubbyholeKey) (key : CubbyholeKey) :
    TokenM (List GoError) :=
  if key ∈ validCubbyholeKeys then return []
  else do
    let result ← capture (perform (.clearCubbyhole key))
    return failure "failed to revoke cubbyhole key" result

def tidyCubbyholes (validCubbyholeKeys : List CubbyholeKey) :
    List CubbyholeKey → TokenM (List GoError)
  | [] => return []
  | key :: rest => do
      let errors ← tidyCubbyhole validCubbyholeKeys key
      let more ← tidyCubbyholes validCubbyholeKeys rest
      return errors ++ more

/-- The function `doTidy` of `handleTidy`; the errors it returns are only logged. -/
def doTidy : TokenM (List GoError) := do
  let saltedAccessorList ←
    wrapErr "failed to fetch accessor index entries" (perform .listAccessors)
  let parentList ← wrapErr "failed to fetch secondary index entries" (perform .listParents)
  let cubbyholeKeys ←
    wrapErr "failed to fetch cubbyhole storage keys" (perform .listCubbyholes)
  let parentErrors ← tidyParents revokeTree parentList
  let findings ← tidyAccessors revokeTree saltedAccessorList
  let cubbyholeErrors ← tidyCubbyholes findings.validCubbyholeKeys cubbyholeKeys
  return parentErrors ++ findings.errors ++ cubbyholeErrors

end VaultProofs.TokenTidy
