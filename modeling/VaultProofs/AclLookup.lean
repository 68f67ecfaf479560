import Mathlib.Data.List.Sort
import VaultProofs.AclRules

/-!
How an ACL finds the permissions for a path. A pointer to permissions is the pattern they are stored
under. The order in which a map is iterated is given.
-/

namespace VaultProofs.AclLookup

open GoStrings ApprovalEntries AclPolicies AclRules

structure WcPathDescr where
  firstWCOrGlob : Int
  wildcards : Nat := 0
  isPrefix : Bool := false
  wcPath : GoString
  perms : Pattern

def less (pdi pdj : WcPathDescr) : Bool :=
  if pdi.firstWCOrGlob < pdj.firstWCOrGlob then true
  else if pdj.firstWCOrGlob < pdi.firstWCOrGlob then false
  else if pdi.isPrefix && !pdj.isPrefix then true
  else if !pdi.isPrefix && pdj.isPrefix then false
  else if pdj.wildcards < pdi.wildcards then true
  else if pdi.wildcards < pdj.wildcards then false
  else if pdi.wcPath.length < pdj.wcPath.length then true
  else if pdj.wcPath.length < pdi.wcPath.length then false
  else stringLess pdi.wcPath pdj.wcPath

def longestPrefix (acl : ACL) (path : GoString) : Option GoString :=
  path.inits.reverse.find? fun start => (acl.prefixRules.lookup start).isSome

def prefixDescr (start : GoString) : WcPathDescr where
  firstWCOrGlob := start.length
  isPrefix := true
  wcPath := start
  perms := ⟨.glob, start⟩

/-- How the comparison of a pattern with a path ends; `atMount` is where a mount path has been used
up. -/
inductive Comparison where
  | mismatch
  | matched (wildcards : Nat)
  | atMount (segments : List GoString)

/-- Compares segment by segment, with the `wildcards` counted and `segments` collected so far. Only
a mount path may have fewer segments than the pattern, and then the comparison ends with the
path. -/
def compareSegments (bareMount isPrefix : Bool) :
    List GoString → List GoString → Nat → List GoString → Comparison
  | [], _, wildcards, _ => .matched wildcards
  | _ :: _, [], _, _ => .mismatch
  | aclPart :: aclParts, part :: parts, wildcards, segments =>
    let next (wildcards : Nat) (segments : List GoString) :=
      if bareMount && parts.length == 1 then .atMount segments
      else compareSegments bareMount isPrefix aclParts parts wildcards segments
    if aclPart = ofString "+" then next (wildcards + 1) (segments ++ [part])
    else if aclPart = part then next wildcards (segments ++ [part])
    else if isPrefix && aclParts.isEmpty && hasPrefix part aclPart then
      next wildcards (segments ++ part :: parts)
    else if bareMount then next wildcards segments
    else .mismatch

def currWCPath (fullWCPath : GoString) : GoString :=
  trimSuffix fullWCPath (ofString "*")

def segmentDescr (fullWCPath : GoString) (wildcards : Nat) : WcPathDescr where
  firstWCOrGlob := indexByte fullWCPath 0x2b
  wildcards := wildcards
  isPrefix := hasSuffix fullWCPath (ofString "*")
  wcPath := currWCPath fullWCPath
  perms := ⟨.segment, fullWCPath⟩

/-- One round of the loop over the patterns with segment wildcards. An error is the pattern that is
returned at once. -/
def visitPattern (acl : ACL) (path : GoString) (bareMount : Bool) (descrs : List WcPathDescr)
    (fullWCPath : GoString) : Except Pattern (List WcPathDescr) :=
  let isPrefix := hasSuffix fullWCPath (ofString "*")
  let splitCurrWCPath := splitByte 0x2f (currWCPath fullWCPath)
  let pathParts := splitByte 0x2f path
  if fullWCPath = [] then .ok descrs
  else if !bareMount && pathParts.length < splitCurrWCPath.length then .ok descrs
  else if !bareMount && !isPrefix && splitCurrWCPath.length ≠ pathParts.length then .ok descrs
  else
    match compareSegments bareMount isPrefix splitCurrWCPath pathParts 0 [] with
    | .mismatch => .ok descrs
    | .matched wildcards => .ok (descrs ++ [segmentDescr fullWCPath wildcards])
    | .atMount segments =>
      match acl.segmentWildcardPaths.lookup fullWCPath with
      | none => .ok descrs
      | some permissions =>
        if hasPrefix (joinByte 0x2f segments ++ [0x2f]) path && !permissions.denies &&
            decide (0 < permissions.capabilitiesBitmap) then
          .error ⟨.segment, fullWCPath⟩
        else .ok descrs

-- The sort puts the descriptor with the highest priority last.
def lastDescr (descrs : List WcPathDescr) : Option WcPathDescr :=
  (descrs.insertionSort fun pdi pdj => !less pdj pdi).getLast?

def checkAllowedFromNonExactPaths (acl : ACL) (order : List GoString) (path : GoString)
    (bareMount : Bool) : Option Pattern :=
  let start := (longestPrefix acl path).map prefixDescr
  if acl.segmentWildcardPaths.entries.isEmpty then start.map (·.perms)
  else
    match order.foldlM (visitPattern acl path bareMount) start.toList with
    | .error pattern => some pattern
    | .ok descrs => if bareMount then none else (lastDescr descrs).map (·.perms)

def exactPattern (acl : ACL) (path : GoString) : Option Pattern :=
  if (acl.exactRules.lookup path).isSome then some ⟨.exact, path⟩ else none

/-- The pattern whose permissions are checked for an operation on a path. -/
def findPattern (acl : ACL) (order : List GoString) (op : Operation) (path : GoString) :
    Option Pattern :=
  let bare := trimSuffix path (ofString "/")
  exactPattern acl path <|>
    (if op = .list then exactPattern acl bare else none) <|>
    (if op = .list ∧ hasSuffix path (ofString "/") then
      checkAllowedFromNonExactPaths acl order bare false
    else none) <|>
    checkAllowedFromNonExactPaths acl order path false

end VaultProofs.AclLookup
