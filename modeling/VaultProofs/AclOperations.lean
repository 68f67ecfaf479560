import VaultProofs.AclLookup

/-!
Whether an ACL allows an operation: the parameters of a request against the permissions found for
its path.
-/

namespace VaultProofs.AclOperations

open GoStrings JsonValues ApprovalEntries VaultEffects AclPolicies AclRules AclLookup

structure ACLResults where
  allowed : Bool := false
  rootPrivs : Bool := false
  isRoot : Bool := false
  mfaMethods : List GoString := []
  controlGroup : Option ControlGroup := none
  capabilitiesBitmap : UInt32 := 0
  grantingPolicies : List PolicyInfo := []
  subscribeEventTypes : List GoString := []

structure WrappedRequest extends Request where
  wrapInfo : Option Duration := none

/-! Parameter values -/

def valueMatches (lib : Library) (v el : GoValue) : Bool :=
  match el, v with
  | .null, .null => true
  | .null, _ => false
  | _, .null => false
  | .str elStr, .str vStr => lib.globbedStringsMatch elStr vStr
  | .str _, _ => false
  | el, v => lib.deepEqual el v

def valueInParameterList (lib : Library) (v : GoValue) (list : List GoValue) : Bool :=
  list.any (valueMatches lib v)

/-- The elements of a slice, or of a string taken as a comma-separated list. -/
def sliceElements (lib : Library) : GoValue → Option (List GoValue)
  | .slice items => some items
  | .str text => (lib.parseCommaStringSlice text).map (·.map .str)
  | _ => none

def valueInAllowedParameterList (lib : Library) (v : GoValue) (list : List GoValue) : Bool :=
  list.isEmpty || valueInParameterList lib v list ||
    (!lib.legacyExactMatching &&
      match sliceElements lib v with
      | some elements => elements.all (valueInParameterList lib · list)
      | none => false)

def valueInDeniedParameterList (lib : Library) (v : GoValue) (list : List GoValue) : Bool :=
  list.isEmpty || valueInParameterList lib v list ||
    (!lib.legacyExactMatching &&
      match sliceElements lib v with
      | some elements => elements.any (valueInParameterList lib · list)
      | none => false)

def mapEntries (data : GoMap) : GoMap :=
  (data.map Prod.fst).dedup.filterMap fun key => (lastValue data key).map (key, ·)

def hasRequiredParameters (lib : Library) (required : List GoString) (data : GoMap) : Bool :=
  required.all fun parameter => (lastValue data (lib.toLower parameter)).isSome

def deniedEntryPasses (lib : Library) (denied : ParameterMap) (entry : GoString × GoValue) : Bool :=
  match denied.lookup (lib.toLower entry.1) with
  | some values => !valueInDeniedParameterList lib entry.2 values
  | none => true

def deniedParametersPass (lib : Library) (denied : ParameterMap) (data : GoMap) : Bool :=
  denied.entries.isEmpty ||
    ((denied.lookup (ofString "*")).isNone &&
      (mapEntries data).all (deniedEntryPasses lib denied))

def allowedEntryPasses (lib : Library) (allowed : ParameterMap) (entry : GoString × GoValue) :
    Bool :=
  match allowed.lookup (lib.toLower entry.1) with
  | some values => valueInAllowedParameterList lib entry.2 values
  | none => (allowed.lookup (ofString "*")).isSome

def allowedParametersPass (lib : Library) (allowed : ParameterMap) (data : GoMap) : Bool :=
  allowed.entries.isEmpty ||
    (allowed.entries.length == 1 && (allowed.lookup (ofString "*")).isSome) ||
    (mapEntries data).all (allowedEntryPasses lib allowed)

def parametersPass (lib : Library) (permissions : ACLPermissions) (data : GoMap) : Bool :=
  hasRequiredParameters lib permissions.requiredParameters data &&
    (data.isEmpty ||
      (deniedParametersPass lib (permissions.deniedParameters.getD ∅) data &&
        allowedParametersPass lib (permissions.allowedParameters.getD ∅) data))

/-- The wrapping time of a request against the limits. After merging, the greater
limit may be the minimum. -/
def wrappingPasses (minTTL maxTTL : Duration) (wrapInfo : Option Duration) : Bool :=
  (decide (maxTTL ≤ 0) || wrapInfo.any fun ttl => decide (ttl ≤ maxTTL)) &&
    (decide (minTTL ≤ 0) || wrapInfo.any fun ttl => decide (minTTL ≤ ttl)) &&
    !decide (minTTL ≠ 0 ∧ maxTTL ≠ 0 ∧ maxTTL < minTTL)

def operationCapability : Operation → Option UInt32
  | .read => some readCapabilityInt
  | .list => some listCapabilityInt
  | .update => some updateCapabilityInt
  | .delete => some deleteCapabilityInt
  | .create => some createCapabilityInt
  | .patch => some patchCapabilityInt
  | .recover => some recoverCapabilityInt
  | .revoke | .renew | .rollback => some updateCapabilityInt
  | _ => none

def checksParameters (op : Operation) : Bool :=
  op ∈ [.read, .update, .create, .patch, .recover]

/-! The decision -/

def checkPermissions (lib : Library) (permissions : ACLPermissions) (req : WrappedRequest)
    (capCheckOnly : Bool) : ACLResults :=
  let bitmap := permissions.capabilitiesBitmap
  let rootPrivs := hasCapability bitmap sudoCapabilityInt
  if capCheckOnly then
    { rootPrivs := rootPrivs
      capabilitiesBitmap := bitmap
      subscribeEventTypes := permissions.subscribeEventTypes }
  else
    let ret : ACLResults :=
      { rootPrivs := rootPrivs
        mfaMethods := permissions.mfaMethods
        controlGroup := permissions.controlGroup }
    match operationCapability req.operation with
    | none => ret
    | some capability =>
      if !hasCapability bitmap capability then ret
      else
        { ret with
          grantingPolicies := permissions.grantingPolicies capability
          allowed :=
            wrappingPasses permissions.minWrappingTTL permissions.maxWrappingTTL req.wrapInfo &&
              (!checksParameters req.operation ||
                parametersPass lib permissions (req.data.getD [])) }

def checkFound (lib : Library) (found : Option ACLPermissions) (req : WrappedRequest)
    (capCheckOnly : Bool) : ACLResults :=
  match found with
  | none => {}
  | some permissions => checkPermissions lib permissions req capCheckOnly

def aclPath (space : Namespace) (path : GoString) : GoString :=
  (space.path ++ path).dropWhile (· = 0x2f)

def allowOperation (lib : Library) (acl : ACL) (order : List GoString) (space : Namespace)
    (req : WrappedRequest) (capCheckOnly : Bool) : ACLResults :=
  if acl.root then
    { allowed := true
      rootPrivs := true
      isRoot := true
      grantingPolicies := [⟨ofString "root", ofString "root", [], ofString "acl"⟩]
      subscribeEventTypes := [ofString "*"] }
  else if req.operation = .help then { allowed := true }
  else
    let pattern := findPattern acl order req.operation (aclPath space req.path)
    checkFound lib (pattern.bind acl.lookup) req capCheckOnly

theorem allowOperation_eq (lib : Library) {acl : ACL} (order : List GoString) (space : Namespace)
    {req : WrappedRequest} (hroot : ¬ acl.root = true) (hhelp : req.operation ≠ .help)
    (capCheckOnly : Bool) :
    allowOperation lib acl order space req capCheckOnly =
      checkFound lib
        ((findPattern acl order req.operation (aclPath space req.path)).bind acl.lookup) req
        capCheckOnly := by
  simp [allowOperation, hroot, hhelp]

/-! A setting for examples -/

-- Texts are compared as they are, and no text is a list.
def plainLibrary : Library where
  quote := id
  toLower := id
  removeDuplicates := List.dedup
  globbedStringsMatch := fun pattern text => pattern == text
  deepEqual := fun _ _ => false
  parseCommaStringSlice := fun _ => none
  legacyExactMatching := false

def rootSpace : Namespace := ⟨rootNamespaceID, []⟩

end VaultProofs.AclOperations
