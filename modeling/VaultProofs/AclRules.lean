import VaultProofs.TableFolds
import VaultProofs.AclPolicies

/-!
The ACL of a list of policies. The rules of a pattern are merged in the order of the policies.
-/

namespace VaultProofs.AclRules

open GoStrings JsonValues VaultEffects TableFolds AclPolicies

/-! Merging -/

-- The lesser of two specified limits.
def mergeTTL (existing added : Duration) : Duration :=
  if 0 < added ∧ (existing = 0 ∨ added < existing) then added else existing

-- An empty list admits every value and wins over any other list.
def mergeValues (value : List GoValue) (present : Option (List GoValue)) : List GoValue :=
  if value.isEmpty || present.any List.isEmpty then [] else value ++ present.getD []

def mergeParameters (existing added : Option ParameterMap) : Option ParameterMap :=
  match added with
  | none => existing
  | some added =>
    if added.entries.isEmpty then existing
    else
      match existing with
      | none => some added
      | some present =>
        some (added.entries.foldl
          (fun m entry => m.insert entry.1 (mergeValues entry.2 (m.lookup entry.1))) present)

def mergeRequired (existing added : List GoString) : List GoString :=
  if added = [] then existing
  else if existing = [] then added
  else added.foldl (fun names name => if name ∈ names then names else names ++ [name]) existing

def mergeMFAMethods (lib : Library) (existing added : List GoString) : List GoString :=
  if added = [] then existing else lib.removeDuplicates (existing ++ added)

def mergeControlGroup (existing added : Option ControlGroup) : Option ControlGroup :=
  match added with
  | none => existing
  | some added =>
    if added.factors.isEmpty then existing
    else
      match existing with
      | none => some added
      | some present => some { present with factors := present.factors ++ added.factors }

def mergeSubscribeEventTypes (lib : Library) (existing added : List GoString) : List GoString :=
  if added ≠ [] ∧ existing ≠ [] then lib.removeDuplicates (existing ++ added) else existing

def addGrantingPoliciesToMap (granting : UInt32 → List PolicyInfo) (policy : Policy)
    (bitmap : UInt32) : UInt32 → List PolicyInfo := fun capability =>
  if cap2Int.any (·.2 == capability) && hasCapability bitmap capability then
    granting capability ++ [⟨policy.name, policy.space.id, policy.space.path, ofString "acl"⟩]
  else granting capability

/-- The permissions of a pattern that does not deny, after one more rule; of a denial only the deny
is kept. -/
def mergePermissions (lib : Library) (existing : ACLPermissions) (policy : Policy)
    (added : ACLPermissions) : ACLPermissions :=
  if added.denies then
    { existing with
      capabilitiesBitmap := denyCapabilityInt
      allowedParameters := none
      deniedParameters := none }
  else
    { capabilitiesBitmap := existing.capabilitiesBitmap ||| added.capabilitiesBitmap
      minWrappingTTL := mergeTTL existing.minWrappingTTL added.minWrappingTTL
      maxWrappingTTL := mergeTTL existing.maxWrappingTTL added.maxWrappingTTL
      allowedParameters := mergeParameters existing.allowedParameters added.allowedParameters
      deniedParameters := mergeParameters existing.deniedParameters added.deniedParameters
      requiredParameters := mergeRequired existing.requiredParameters added.requiredParameters
      mfaMethods := mergeMFAMethods lib existing.mfaMethods added.mfaMethods
      controlGroup := mergeControlGroup existing.controlGroup added.controlGroup
      grantingPolicies :=
        addGrantingPoliciesToMap existing.grantingPolicies policy added.capabilitiesBitmap
      subscribeEventTypes :=
        mergeSubscribeEventTypes lib existing.subscribeEventTypes added.subscribeEventTypes }

def freshPermissions (policy : Policy) (added : ACLPermissions) : ACLPermissions :=
  { added.clone with
    grantingPolicies := addGrantingPoliciesToMap (fun _ => []) policy added.capabilitiesBitmap }

/-! The ACL -/

abbrev RuleMap := AList fun _ : GoString => ACLPermissions

structure ACL where
  exactRules : RuleMap := ∅
  prefixRules : RuleMap := ∅
  segmentWildcardPaths : RuleMap := ∅
  root : Bool := false
  rgpPolicies : List Policy := []

def ACL.rules (acl : ACL) : PathKind → RuleMap
  | .exact => acl.exactRules
  | .glob => acl.prefixRules
  | .segment => acl.segmentWildcardPaths

def ACL.setRules (acl : ACL) (rules : RuleMap) : PathKind → ACL
  | .exact => { acl with exactRules := rules }
  | .glob => { acl with prefixRules := rules }
  | .segment => { acl with segmentWildcardPaths := rules }

def addRule (lib : Library) (policy : Policy) (acl : ACL) (pc : PathRules) : ACL :=
  let rules := acl.rules pc.kind
  match rules.lookup pc.path with
  | none => acl.setRules (rules.insert pc.path (freshPermissions policy pc.permissions)) pc.kind
  | some existing =>
    if existing.denies then acl
    else acl.setRules
      (rules.insert pc.path (mergePermissions lib existing policy pc.permissions)) pc.kind

def addPolicy (lib : Library) (space : Namespace) (count : Nat) (acl : ACL) :
    Option Policy → Except GoError ACL
  | none => .ok acl
  | some policy =>
    match policy.type with
    | .acl =>
      if policy.name = ofString "root" then
        if space.id ≠ rootNamespaceID then
          .error (.message (ofString "root policy is only allowed in root namespace"))
        else if count ≠ 1 then
          .error (.message (ofString "other policies present along with root"))
        else .ok (policy.paths.foldl (addRule lib policy) { acl with root := true })
      else .ok (policy.paths.foldl (addRule lib policy) acl)
    | .rgp => .ok { acl with rgpPolicies := acl.rgpPolicies ++ [policy] }
    | _ => .error (.message (ofString "unable to parse policy (wrong type)"))

def newACL (lib : Library) (space : Namespace) (policies : List (Option Policy)) :
    Except GoError ACL :=
  policies.foldlM (addPolicy lib space policies.length) {}

/-! What a pattern ends up with -/

abbrev Entry := Policy × PathRules

def entriesOf : Option Policy → List Entry
  | none => []
  | some policy => if policy.type = .acl then policy.paths.map (policy, ·) else []

def ruleEntries (policies : List (Option Policy)) : List Entry :=
  policies.flatMap entriesOf

variable {policies : List (Option Policy)}

theorem mem_ruleEntries {entry : Entry} :
    entry ∈ ruleEntries policies ↔
      some entry.1 ∈ policies ∧ entry.1.type = .acl ∧ entry.2 ∈ entry.1.paths := by
  have hentries : ∀ policy, entry ∈ entriesOf policy ↔
      policy = some entry.1 ∧ entry.1.type = .acl ∧ entry.2 ∈ entry.1.paths := by
    intro policy
    obtain ⟨owner, pc⟩ := entry
    cases policy with
    | none => simp [entriesOf]
    | some policy =>
      by_cases hacl : policy.type = .acl
      · simp only [entriesOf, if_pos hacl, List.mem_map, Prod.mk.injEq, Option.some.injEq]
        constructor
        · rintro ⟨pc', hpc, rfl, rfl⟩
          exact ⟨rfl, hacl, hpc⟩
        · rintro ⟨rfl, _, hpc⟩
          exact ⟨pc, hpc, rfl, rfl⟩
      · simp only [entriesOf, if_neg hacl, List.not_mem_nil, Option.some.injEq, false_iff]
        rintro ⟨rfl, hacl', _⟩
        exact hacl hacl'
  simp only [ruleEntries, List.mem_flatMap, hentries]
  constructor
  · rintro ⟨policy, hmem, rfl, h⟩
    exact ⟨hmem, h⟩
  · rintro ⟨hmem, h⟩
    exact ⟨_, hmem, rfl, h⟩

def ParsedPolicies (lib : Library) (policies : List (Option Policy)) : Prop :=
  ∀ policy, some policy ∈ policies → policy.type = .acl → policy.Parsed lib

variable {lib : Library}

theorem ParsedPolicies.block (h : ParsedPolicies lib policies)
    {entry : Entry} (hentry : entry ∈ ruleEntries policies) :
    ∃ block, parsePath lib entry.1.space block = .ok entry.2 := by
  obtain ⟨hpolicy, hacl, hpc⟩ := mem_ruleEntries.mp hentry
  exact (h entry.1 hpolicy hacl).block hpc

theorem ruleEntries_perm {policies' : List (Option Policy)}
    (hperm : policies.Perm policies') : (ruleEntries policies).Perm (ruleEntries policies') :=
  hperm.flatMap_right entriesOf

theorem ParsedPolicies.perm {policies' : List (Option Policy)}
    (hparsed : ParsedPolicies lib policies) (hperm : policies.Perm policies') :
    ParsedPolicies lib policies' :=
  fun policy hmem => hparsed policy (hperm.mem_iff.mpr hmem)

def absorb (lib : Library) (present : Option ACLPermissions) (entry : Entry) :
    Option ACLPermissions :=
  match present with
  | none => some (freshPermissions entry.1 entry.2.permissions)
  | some existing =>
    if existing.denies then some existing
    else some (mergePermissions lib existing entry.1 entry.2.permissions)

def mergedPermissions (lib : Library) (entries : List Entry) (pattern : Pattern) :
    Option ACLPermissions :=
  (entries.filter fun entry => entry.2.pattern = pattern).foldl (absorb lib) none

def ACL.lookup (acl : ACL) (pattern : Pattern) : Option ACLPermissions :=
  (acl.rules pattern.kind).lookup pattern.path

def patternsOf (entries : List Entry) : List Pattern :=
  entries.map (·.2.pattern)

theorem isSome_foldl_absorb (lib : Library) (entries : List Entry)
    (present : Option ACLPermissions) :
    (entries.foldl (absorb lib) present).isSome ↔ present.isSome ∨ entries ≠ [] := by
  induction entries generalizing present with
  | nil => simp
  | cons entry entries ih =>
    have habsorb : (absorb lib present entry).isSome := by
      unfold absorb
      split
      · rfl
      · split <;> rfl
    simp [ih, habsorb]

theorem isSome_mergedPermissions (lib : Library) (entries : List Entry) (pattern : Pattern) :
    (mergedPermissions lib entries pattern).isSome ↔ pattern ∈ patternsOf entries := by
  rw [mergedPermissions, isSome_foldl_absorb, Ne, List.filter_eq_nil_iff]
  simp [patternsOf]

theorem rules_setRules_self (acl : ACL) (rules : RuleMap) (kind : PathKind) :
    (acl.setRules rules kind).rules kind = rules := by
  cases kind <;> rfl

theorem rules_setRules_of_ne (acl : ACL) (rules : RuleMap) {kind kind' : PathKind}
    (h : kind' ≠ kind) : (acl.setRules rules kind).rules kind' = acl.rules kind' := by
  cases kind <;> cases kind' <;> first | rfl | exact absurd rfl h

theorem lookup_setRules_insert (acl : ACL) (pattern pattern' : Pattern)
    (permissions : ACLPermissions) :
    (acl.setRules ((acl.rules pattern.kind).insert pattern.path permissions) pattern.kind).lookup
      pattern' = if pattern = pattern' then some permissions else acl.lookup pattern' := by
  unfold ACL.lookup
  by_cases hkind : pattern'.kind = pattern.kind
  · rw [hkind, rules_setRules_self]
    by_cases hpath : pattern'.path = pattern.path
    · have hsame : pattern = pattern' := by
        cases pattern
        cases pattern'
        simp_all
      rw [if_pos hsame, hpath, AList.lookup_insert]
    · have hother : pattern ≠ pattern' := fun h => hpath (h ▸ rfl)
      rw [if_neg hother, AList.lookup_insert_ne hpath]
  · have hother : pattern ≠ pattern' := fun h => hkind (h ▸ rfl)
    rw [if_neg hother, rules_setRules_of_ne acl _ hkind]

theorem addRule_putsAt (lib : Library) :
    PutsAt ACL.lookup (fun entry : Entry => entry.2.pattern) (absorb lib)
      fun acl entry => addRule lib entry.1 acl entry.2 := by
  rintro acl ⟨policy, pc⟩ pattern
  have hinsert := lookup_setRules_insert acl pc.pattern pattern
  simp only [addRule]
  by_cases hpattern : pc.pattern = pattern
  · subst hpattern
    rw [if_pos rfl]
    cases hlook : (acl.rules pc.kind).lookup pc.path with
    | none =>
      have hnone : acl.lookup pc.pattern = none := hlook
      rw [hnone]
      exact (hinsert _).trans (if_pos rfl)
    | some existing =>
      have hsome : acl.lookup pc.pattern = some existing := hlook
      rw [hsome]
      simp only [absorb]
      split
      · exact hsome
      · exact (hinsert _).trans (if_pos rfl)
  rw [if_neg hpattern]
  split
  · exact (hinsert _).trans (if_neg hpattern)
  · split
    · rfl
    · exact (hinsert _).trans (if_neg hpattern)

def Admissible (space : Namespace) (count : Nat) : Option Policy → Prop
  | none => True
  | some policy =>
    policy.type = .rgp ∨ (policy.type = .acl ∧
      (policy.name = ofString "root" → space.id = rootNamespaceID ∧ count = 1))

def isRootPolicy : Option Policy → Bool
  | none => false
  | some policy => policy.type = .acl && policy.name = ofString "root"

def applyPolicy (lib : Library) (acl : ACL) : Option Policy → ACL
  | none => acl
  | some policy =>
    if policy.type = .acl then
      policy.paths.foldl (addRule lib policy)
        { acl with root := acl.root || policy.name = ofString "root" }
    else { acl with rgpPolicies := acl.rgpPolicies ++ [policy] }

variable {policy : Option Policy} {count : Nat}

theorem addPolicy_of_admissible {space : Namespace} {acl : ACL}
    (h : Admissible space count policy) :
    addPolicy lib space count acl policy = .ok (applyPolicy lib acl policy) := by
  cases policy with
  | none => rfl
  | some policy =>
    rcases h with hrgp | ⟨hacl, hroot⟩
    · simp [addPolicy, applyPolicy, hrgp]
    by_cases hname : policy.name = ofString "root"
    · obtain ⟨hspace, hcount⟩ := hroot hname
      simp [addPolicy, applyPolicy, hacl, hname, hspace, hcount]
    · simp [addPolicy, applyPolicy, hacl, hname]

theorem addPolicy_of_not_admissible {space : Namespace}
    (h : ¬ Admissible space count policy) (lib : Library) (acl : ACL) :
    ∃ e, addPolicy lib space count acl policy = .error e := by
  cases policy with
  | none => exact (h trivial).elim
  | some policy =>
    simp only [Admissible, not_or, not_and, Classical.not_imp] at h
    obtain ⟨hrgp, hroot⟩ := h
    cases htype : policy.type with
    | acl =>
      obtain ⟨hname, hcount⟩ := hroot htype
      by_cases hspace : space.id = rootNamespaceID
      · simp [addPolicy, htype, hname, hspace, hcount hspace]
      · simp [addPolicy, htype, hname, hspace]
    | rgp => exact (hrgp htype).elim
    | egp | token => simp [addPolicy, htype]

theorem root_addRules (lib : Library) (policy : Policy) (rules : List PathRules) (acl : ACL) :
    (rules.foldl (addRule lib policy) acl).root = acl.root := by
  induction rules generalizing acl with
  | nil => rfl
  | cons pc rules ih =>
    have hset : ∀ map kind, (acl.setRules map kind).root = acl.root := by
      intro map kind
      cases kind <;> rfl
    rw [List.foldl_cons, ih]
    simp only [addRule]
    split
    · exact hset _ _
    · split
      · rfl
      · exact hset _ _

theorem root_applyPolicy (lib : Library) (acl : ACL) (policy : Option Policy) :
    (applyPolicy lib acl policy).root = (acl.root || isRootPolicy policy) := by
  cases policy with
  | none => simp [applyPolicy, isRootPolicy]
  | some policy =>
    by_cases hacl : policy.type = .acl
    · simp [applyPolicy, isRootPolicy, hacl, root_addRules]
    · simp [applyPolicy, isRootPolicy, hacl]

theorem lookup_applyPolicy (lib : Library) (acl : ACL) (policy : Option Policy)
    (pattern : Pattern) :
    (applyPolicy lib acl policy).lookup pattern =
      ((entriesOf policy).filter fun entry => entry.2.pattern = pattern).foldl (absorb lib)
        (acl.lookup pattern) := by
  cases policy with
  | none => rfl
  | some policy =>
    by_cases hacl : policy.type = .acl
    · simp only [applyPolicy, entriesOf, if_pos hacl]
      have hfold := (addRule_putsAt lib).look_foldl (policy.paths.map (policy, ·))
        { acl with root := acl.root || policy.name = ofString "root" } pattern
      rw [List.foldl_map] at hfold
      exact hfold
    · simp only [applyPolicy, entriesOf, if_neg hacl]
      rfl

theorem root_foldl (lib : Library) (policies : List (Option Policy)) (acl : ACL) :
    (policies.foldl (applyPolicy lib) acl).root = (acl.root || policies.any isRootPolicy) := by
  induction policies generalizing acl with
  | nil => simp
  | cons policy policies ih =>
    rw [List.foldl_cons, ih, root_applyPolicy, List.any_cons, Bool.or_assoc]

theorem lookup_foldl (lib : Library) (policies : List (Option Policy)) (acl : ACL)
    (pattern : Pattern) :
    (policies.foldl (applyPolicy lib) acl).lookup pattern =
      ((ruleEntries policies).filter fun entry => entry.2.pattern = pattern).foldl (absorb lib)
        (acl.lookup pattern) := by
  induction policies generalizing acl with
  | nil => rfl
  | cons policy policies ih =>
    rw [List.foldl_cons, ih, lookup_applyPolicy, ruleEntries, ruleEntries, List.flatMap_cons,
      List.filter_append, List.foldl_append]

variable {space : Namespace}

theorem foldlM_addPolicy (h : ∀ policy ∈ policies, Admissible space count policy)
    (acl : ACL) :
    policies.foldlM (addPolicy lib space count) acl =
      .ok (policies.foldl (applyPolicy lib) acl) := by
  induction policies generalizing acl with
  | nil => rfl
  | cons policy policies ih =>
    rw [List.foldlM_cons, addPolicy_of_admissible (h policy (.head _))]
    exact ih (fun policy' hmem => h policy' (.tail _ hmem)) _

theorem foldlM_addPolicy_error (hmem : policy ∈ policies)
    (h : ¬ Admissible space count policy) (lib : Library) (acl : ACL) :
    ∃ e, policies.foldlM (addPolicy lib space count) acl = .error e := by
  induction policies generalizing acl with
  | nil => cases hmem
  | cons first policies ih =>
    by_cases hfirst : Admissible space count first
    · rw [List.foldlM_cons, addPolicy_of_admissible hfirst]
      rcases List.mem_cons.mp hmem with rfl | hrest
      · exact (h hfirst).elim
      · exact ih hrest _
    · obtain ⟨e, he⟩ := addPolicy_of_not_admissible hfirst lib acl
      exact ⟨e, by rw [List.foldlM_cons, he]; rfl⟩

variable {acl : ACL}

theorem newACL_eq_ok_iff :
    newACL lib space policies = .ok acl ↔
      (∀ policy ∈ policies, Admissible space policies.length policy) ∧
        acl = policies.foldl (applyPolicy lib) {} := by
  constructor
  · intro hacl
    have hall : ∀ policy ∈ policies, Admissible space policies.length policy := by
      intro policy hmem
      by_contra hbad
      obtain ⟨e, he⟩ := foldlM_addPolicy_error hmem hbad lib {}
      rw [newACL, he] at hacl
      cases hacl
    rw [newACL, foldlM_addPolicy hall, Except.ok.injEq] at hacl
    exact ⟨hall, hacl.symm⟩
  · rintro ⟨hall, rfl⟩
    exact foldlM_addPolicy hall {}

theorem lookup_newACL (hacl : newACL lib space policies = .ok acl) (pattern : Pattern) :
    acl.lookup pattern = mergedPermissions lib (ruleEntries policies) pattern := by
  rw [(newACL_eq_ok_iff.mp hacl).2, lookup_foldl]
  have hempty : ACL.lookup {} pattern = none := by
    unfold ACL.lookup
    cases pattern.kind <;> rfl
  rw [hempty]
  rfl

theorem mem_patternsOf_iff (hacl : newACL lib space policies = .ok acl) (pattern : Pattern) :
    pattern ∈ patternsOf (ruleEntries policies) ↔ (acl.lookup pattern).isSome := by
  rw [lookup_newACL hacl, isSome_mergedPermissions]

theorem root_newACL (hacl : newACL lib space policies = .ok acl) :
    acl.root = policies.any isRootPolicy := by
  rw [(newACL_eq_ok_iff.mp hacl).2, root_foldl]
  rfl

end VaultProofs.AclRules
