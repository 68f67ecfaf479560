import VaultProofs.VaultEffects

/-!
ACL policies: what a path block grants, and how it is checked and classified when the policy is
parsed. Blocks are as HCL decoding and templating leave them; slices and maps are values.
-/

namespace VaultProofs.AclPolicies

open GoStrings JsonValues VaultEffects
open EffectPrograms (bind_eq_ok)

/-- Functions of other packages, and the switch in the process environment. -/
structure Library where
  quote : GoString → GoString
  toLower : GoString → GoString
  removeDuplicates : List GoString → List GoString
  globbedStringsMatch : GoString → GoString → Bool
  deepEqual : GoValue → GoValue → Bool
  parseCommaStringSlice : GoString → Option (List GoString)
  legacyExactMatching : Bool

structure Namespace where
  id : GoString
  path : GoString

def rootNamespaceID : GoString := ofString "root"

def denyCapabilityInt : UInt32 := 1
def createCapabilityInt : UInt32 := 2
def readCapabilityInt : UInt32 := 4
def updateCapabilityInt : UInt32 := 8
def deleteCapabilityInt : UInt32 := 16
def listCapabilityInt : UInt32 := 32
def sudoCapabilityInt : UInt32 := 64
def patchCapabilityInt : UInt32 := 128
def subscribeCapabilityInt : UInt32 := 256
def recoverCapabilityInt : UInt32 := 512

def cap2Int : List (GoString × UInt32) :=
  [(ofString "deny", denyCapabilityInt), (ofString "create", createCapabilityInt),
   (ofString "read", readCapabilityInt), (ofString "update", updateCapabilityInt),
   (ofString "delete", deleteCapabilityInt), (ofString "list", listCapabilityInt),
   (ofString "sudo", sudoCapabilityInt), (ofString "patch", patchCapabilityInt),
   (ofString "subscribe", subscribeCapabilityInt), (ofString "recover", recoverCapabilityInt)]

def hasCapability (bitmap capability : UInt32) : Bool :=
  0 < bitmap &&& capability

structure IdentityFactor where
  groupIDs : List GoString := []
  groupNames : List GoString := []
  approvalsRequired : Int := 0

structure ControlGroupFactor where
  name : GoString := []
  identity : Option IdentityFactor := none
  controlledCapabilities : List GoString := []

structure ControlGroup where
  ttl : Duration := 0
  factors : List ControlGroupFactor := []

structure PolicyInfo where
  name : GoString
  namespaceID : GoString
  namespacePath : GoString
  type : GoString

abbrev ParameterMap := AList fun _ : GoString => List GoValue

-- A nil map is `none`; a nil slice is the empty list.
structure ACLPermissions where
  capabilitiesBitmap : UInt32 := 0
  minWrappingTTL : Duration := 0
  maxWrappingTTL : Duration := 0
  allowedParameters : Option ParameterMap := none
  deniedParameters : Option ParameterMap := none
  requiredParameters : List GoString := []
  mfaMethods : List GoString := []
  controlGroup : Option ControlGroup := none
  grantingPolicies : UInt32 → List PolicyInfo := fun _ => []
  subscribeEventTypes : List GoString := []

def ACLPermissions.clone (p : ACLPermissions) : ACLPermissions where
  capabilitiesBitmap := p.capabilitiesBitmap
  minWrappingTTL := p.minWrappingTTL
  maxWrappingTTL := p.maxWrappingTTL
  allowedParameters := p.allowedParameters
  deniedParameters := p.deniedParameters
  requiredParameters := p.requiredParameters
  mfaMethods := p.mfaMethods
  controlGroup := p.controlGroup
  grantingPolicies := p.grantingPolicies
  subscribeEventTypes := p.subscribeEventTypes

def ACLPermissions.denies (p : ACLPermissions) : Bool :=
  hasCapability p.capabilitiesBitmap denyCapabilityInt

structure PathRules where
  path : GoString
  isPrefix : Bool := false
  hasSegmentWildcards : Bool := false
  permissions : ACLPermissions

inductive PathKind where
  | exact
  | glob
  | segment
  deriving DecidableEq

structure Pattern where
  kind : PathKind
  path : GoString
  deriving DecidableEq

def PathRules.kind (pc : PathRules) : PathKind :=
  if pc.hasSegmentWildcards then .segment else if pc.isPrefix then .glob else .exact

def PathRules.pattern (pc : PathRules) : Pattern :=
  ⟨pc.kind, pc.path⟩

inductive PolicyType where
  | acl
  | rgp
  | egp
  | token
  deriving DecidableEq

structure Policy where
  name : GoString
  paths : List PathRules
  type : PolicyType := .acl
  space : Namespace

/-! Parsing -/

/-- A decoded path block, with parsed durations and the entries of maps in the order of
iteration. -/
structure PathBlock where
  key : GoString
  policy : GoString := []
  capabilities : List GoString := []
  minWrappingTTL : Option Duration := none
  maxWrappingTTL : Option Duration := none
  allowedParameters : Option (List (GoString × List GoValue)) := none
  deniedParameters : Option (List (GoString × List GoValue)) := none
  requiredParameters : List GoString := []
  mfaMethods : List GoString := []
  controlGroup : Option (Option Duration × List (GoString × ControlGroupFactor)) := none
  subscribeEventTypes : List GoString := []

def stripSlash : GoString → GoString
  | [] => []
  | byte :: rest => if byte = 0x2f then rest else byte :: rest

/-- The path has a segment that starts with `+`. -/
def segmentWildcards (path : GoString) : Bool :=
  path == ofString "+" || containsText path (ofString "/+") || hasPrefix path (ofString "+/")

/-- The path of a block, whether it is a prefix and whether it has segment wildcards, without which
a trailing asterisk is stripped. -/
def classifyPath (lib : Library) (path : GoString) : Except GoError (GoString × Bool × Bool) :=
  if containsText path (ofString "+*") then
    .error (.message (ofString "path " ++ lib.quote path ++
      ofString ": invalid use of wildcards ('+*' is forbidden)"))
  else if segmentWildcards path then .ok (path, false, true)
  else if hasSuffix path (ofString "*") then .ok (trimSuffix path (ofString "*"), true, false)
  else .ok (path, false, false)

def oldPolicyCapabilities (lib : Library) (block : PathBlock) : Except GoError (List GoString) :=
  let add (names : List String) := .ok (block.capabilities ++ names.map ofString)
  if block.policy = [] then .ok block.capabilities
  else if block.policy = ofString "deny" then .ok [ofString "deny"]
  else if block.policy = ofString "read" then add ["read", "list"]
  else if block.policy = ofString "write" then add ["create", "read", "update", "delete", "list"]
  else if block.policy = ofString "sudo" then
    add ["create", "read", "update", "delete", "list", "sudo"]
  else .error (.message (ofString "path " ++ lib.quote block.key ++
    ofString ": invalid policy " ++ lib.quote block.policy))

def capabilitiesBitmap (lib : Library) (key : GoString) :
    List GoString → UInt32 → Except GoError UInt32
  | [], bitmap => .ok bitmap
  | name :: rest, bitmap =>
    if name = ofString "deny" then .ok denyCapabilityInt
    else
      match cap2Int.lookup name with
      | some capability => capabilitiesBitmap lib key rest (bitmap ||| capability)
      | none => .error (.message (ofString "path " ++ lib.quote key ++
          ofString ": invalid capability " ++ lib.quote name))

def lowerKeys (lib : Library) (parameters : List (GoString × List GoValue)) : ParameterMap :=
  parameters.foldl (fun m entry => m.insert (lib.toLower entry.1) entry.2) ∅

def checkFactor (capabilities : List GoString) (factor : ControlGroupFactor) :
    Except GoError Unit :=
  match factor.identity with
  | none => .error (.message (ofString "no control_group factor provided"))
  | some identity =>
    if identity.approvalsRequired ≤ 0 ∨ (identity.groupIDs = [] ∧ identity.groupNames = []) then
      .error (.message (ofString "must provide more than one identity group and approvals > 0"))
    else if factor.controlledCapabilities.all (capabilities.contains ·) then .ok ()
    else .error (.message (ofString
      "control group factor capabilities must be a subset of the policy's capabilities"))

def parseControlGroup (capabilities : List GoString) (ttl : Option Duration)
    (factors : List (GoString × ControlGroupFactor)) : Except GoError ControlGroup := do
  let parsed ← factors.mapM fun entry => do
    checkFactor capabilities entry.2
    return { entry.2 with name := entry.1 }
  if parsed.isEmpty then throw (.message (ofString "no control group factors provided"))
  return { ttl := ttl.getD 0, factors := parsed }

def parsePermissions (lib : Library) (block : PathBlock) (capabilities : List GoString)
    (bitmap : UInt32) : Except GoError ACLPermissions := do
  let controlGroup ← block.controlGroup.mapM fun group =>
    parseControlGroup capabilities group.1 group.2
  let minTTL := block.minWrappingTTL.getD 0
  let maxTTL := block.maxWrappingTTL.getD 0
  if minTTL ≠ 0 ∧ maxTTL ≠ 0 ∧ maxTTL < minTTL then
    throw (.message (ofString "max_wrapping_ttl cannot be less than min_wrapping_ttl"))
  return {
    capabilitiesBitmap := bitmap
    minWrappingTTL := minTTL
    maxWrappingTTL := maxTTL
    allowedParameters := block.allowedParameters.map (lowerKeys lib)
    deniedParameters := block.deniedParameters.map (lowerKeys lib)
    requiredParameters := block.requiredParameters
    mfaMethods := block.mfaMethods
    controlGroup := controlGroup
    subscribeEventTypes := block.subscribeEventTypes }

def parsePath (lib : Library) (space : Namespace) (block : PathBlock) :
    Except GoError PathRules := do
  let (path, isPrefix, wildcards) ← classifyPath lib (space.path ++ stripSlash block.key)
  let capabilities ← oldPolicyCapabilities lib block
  let bitmap ← capabilitiesBitmap lib block.key capabilities 0
  -- A deny is kept alone: the rest of the block is not looked at.
  let permissions ←
    if hasCapability bitmap denyCapabilityInt then
      pure { capabilitiesBitmap := denyCapabilityInt }
    else parsePermissions lib block capabilities bitmap
  return ⟨path, isPrefix, wildcards, permissions⟩

def parsePaths (lib : Library) (space : Namespace) (blocks : List PathBlock) :
    Except GoError (List PathRules) :=
  blocks.mapM (parsePath lib space)

theorem parsePath_eq_ok {lib : Library} {space : Namespace} {block : PathBlock}
    {pc : PathRules} (h : parsePath lib space block = .ok pc) :
    classifyPath lib (space.path ++ stripSlash block.key) =
        .ok (pc.path, pc.isPrefix, pc.hasSegmentWildcards) ∧
      (pc.permissions = { capabilitiesBitmap := denyCapabilityInt } ∨
        ∃ capabilities bitmap, capabilitiesBitmap lib block.key capabilities 0 = .ok bitmap ∧
          hasCapability bitmap denyCapabilityInt = false ∧
          parsePermissions lib block capabilities bitmap = .ok pc.permissions) := by
  obtain ⟨⟨path, isPrefix, wildcards⟩, hpath, h⟩ := bind_eq_ok.mp h
  obtain ⟨capabilities, hcapabilities, h⟩ := bind_eq_ok.mp h
  obtain ⟨bitmap, hbitmap, h⟩ := bind_eq_ok.mp h
  split at h
  · cases h
    exact ⟨hpath, .inl rfl⟩
  rename_i hdeny
  obtain ⟨permissions, hpermissions, h⟩ := bind_eq_ok.mp h
  cases h
  exact ⟨hpath, .inr ⟨capabilities, bitmap, hbitmap, by simpa using hdeny, hpermissions⟩⟩

theorem parsePermissions_eq_ok {lib : Library} {block : PathBlock} {capabilities : List GoString}
    {bitmap : UInt32} {p : ACLPermissions}
    (h : parsePermissions lib block capabilities bitmap = .ok p) :
    p.capabilitiesBitmap = bitmap ∧
      ¬ (p.minWrappingTTL ≠ 0 ∧ p.maxWrappingTTL ≠ 0 ∧ p.maxWrappingTTL < p.minWrappingTTL) := by
  obtain ⟨controlGroup, _, h⟩ := bind_eq_ok.mp h
  simp only at h
  split at h
  · cases h
  · rename_i hlimits
    cases h
    exact ⟨rfl, hlimits⟩

theorem permissions_of_parsePath {lib : Library} {space : Namespace} {block : PathBlock}
    {pc : PathRules} (h : parsePath lib space block = .ok pc) :
    (pc.permissions.denies = true → pc.permissions.capabilitiesBitmap = denyCapabilityInt) ∧
      ¬ (pc.permissions.minWrappingTTL ≠ 0 ∧ pc.permissions.maxWrappingTTL ≠ 0 ∧
        pc.permissions.maxWrappingTTL < pc.permissions.minWrappingTTL) := by
  rcases (parsePath_eq_ok h).2 with hdeny | ⟨capabilities, bitmap, _, hbitmap, hpermissions⟩
  · rw [hdeny]
    exact ⟨fun _ => rfl, fun hlimits => hlimits.1 rfl⟩
  obtain ⟨hsame, hlimits⟩ := parsePermissions_eq_ok hpermissions
  refine ⟨?_, hlimits⟩
  rw [ACLPermissions.denies, hsame, hbitmap]
  intro hfalse
  cases hfalse

theorem mem_of_mapM_eq_ok {ε α β : Type} {f : α → Except ε β} {xs : List α} {ys : List β}
    (h : xs.mapM f = .ok ys) {y : β} (hy : y ∈ ys) : ∃ x ∈ xs, f x = .ok y := by
  induction xs generalizing ys with
  | nil =>
    cases h
    cases hy
  | cons x xs ih =>
    rw [List.mapM_cons] at h
    obtain ⟨first, hfirst, h⟩ := bind_eq_ok.mp h
    obtain ⟨rest, hrest, h⟩ := bind_eq_ok.mp h
    cases h
    rcases List.mem_cons.mp hy with rfl | hmem
    · exact ⟨x, (.head _), hfirst⟩
    · obtain ⟨x', hx', hy'⟩ := ih hrest hmem
      exact ⟨x', .tail _ hx', hy'⟩

def Policy.Parsed (lib : Library) (policy : Policy) : Prop :=
  ∃ blocks, parsePaths lib policy.space blocks = .ok policy.paths

theorem Policy.Parsed.block {lib : Library} {policy : Policy} (h : policy.Parsed lib)
    {pc : PathRules} (hpc : pc ∈ policy.paths) :
    ∃ block, parsePath lib policy.space block = .ok pc := by
  obtain ⟨blocks, hblocks⟩ := h
  obtain ⟨block, _, hblock⟩ := mem_of_mapM_eq_ok hblocks hpc
  exact ⟨block, hblock⟩

end VaultProofs.AclPolicies
