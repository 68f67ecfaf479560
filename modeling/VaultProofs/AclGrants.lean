import Mathlib
import VaultProofs.AclOperations

/-!
What the rules of one pattern grant together. Wrapping times apart, merging is a join.
-/

namespace VaultProofs.AclGrants

open GoStrings JsonValues TableFolds ApprovalEntries AclPolicies AclRules AclOperations

/-- The values listed for each parameter: `⊥` for none, `⊤` where every value counts. -/
abbrev Parameters := GoString → WithBot (WithTop (Set GoValue))

def valuesOf : Option (List GoValue) → WithBot (WithTop (Set GoValue))
  | none => ⊥
  | some [] => ⊤
  | some values => ((({v | v ∈ values} : Set GoValue) : WithTop (Set GoValue)) :)

def listedIn (m : ParameterMap) : Parameters := fun name =>
  valuesOf (m.lookup name)

def listed (parameters : Option ParameterMap) : Parameters :=
  listedIn (parameters.getD ∅)

@[ext] structure Grant where
  capabilities : UInt32
  allowed : Parameters
  denied : Parameters
  required : Set GoString

instance : Max Grant where
  max g h :=
    { capabilities := g.capabilities ||| h.capabilities
      allowed := g.allowed ⊔ h.allowed
      denied := g.denied ⊔ h.denied
      required := g.required ∪ h.required }

instance : SemilatticeSup Grant :=
  SemilatticeSup.mk'
    (fun _ _ => Grant.ext (UInt32.or_comm _ _) (sup_comm _ _) (sup_comm _ _) (Set.union_comm _ _))
    (fun _ _ _ => Grant.ext (UInt32.or_assoc _ _ _) (sup_assoc _ _ _) (sup_assoc _ _ _)
      (Set.union_assoc _ _ _))
    (fun _ => Grant.ext UInt32.or_self (sup_idem _) (sup_idem _) (Set.union_self _))

instance : OrderBot Grant where
  bot := ⟨0, ⊥, ⊥, ∅⟩
  bot_le g := by
    rw [← sup_eq_right]
    exact Grant.ext UInt32.zero_or (bot_sup_eq _) (bot_sup_eq _) (Set.empty_union _)

def grantOf (p : ACLPermissions) : Grant where
  capabilities := p.capabilitiesBitmap
  allowed := listed p.allowedParameters
  denied := listed p.deniedParameters
  required := {name | name ∈ p.requiredParameters}

def summary (p : ACLPermissions) : WithTop Grant :=
  if p.denies then ⊤ else grantOf p

theorem valuesOf_mergeValues (values : List GoValue) (present : Option (List GoValue)) :
    valuesOf (some (mergeValues values present)) = valuesOf present ⊔ valuesOf (some values) := by
  cases values with
  | nil => simp [mergeValues, valuesOf]
  | cons value values =>
    cases present with
    | none => simp [mergeValues, valuesOf]
    | some present =>
      cases present with
      | nil => simp [mergeValues, valuesOf]
      | cons first present =>
        have hjoin : ({v | v ∈ value :: values ++ first :: present} : Set GoValue) =
            {v | v ∈ first :: present} ⊔ {v | v ∈ value :: values} := by
          ext v
          exact List.mem_append.trans or_comm
        show ((({v | v ∈ value :: values ++ first :: present} : Set GoValue) :
          WithTop (Set GoValue)) : WithBot (WithTop (Set GoValue))) = _
        rw [hjoin, WithTop.coe_sup, WithBot.coe_sup]
        rfl

theorem filter_key {entries : List (Sigma fun _ : GoString => List GoValue)}
    (h : entries.NodupKeys) (name : GoString) :
    entries.filter (fun entry => entry.1 = name) =
      ((entries.dlookup name).map (Sigma.mk name)).toList := by
  induction entries with
  | nil => rfl
  | cons entry entries ih =>
    obtain ⟨key, values⟩ := entry
    obtain ⟨hkey, hrest⟩ := List.nodupKeys_cons.mp h
    by_cases heq : key = name
    · subst heq
      have hnone : entries.dlookup key = none := List.dlookup_eq_none.mpr hkey
      rw [List.filter_cons_of_pos (by simp), ih hrest, hnone, List.dlookup_cons_eq]
      rfl
    · rw [List.filter_cons_of_neg (by simpa using heq), ih hrest,
        List.dlookup_cons_ne _ _ (Ne.symm heq)]

theorem lookup_merged (added present : ParameterMap) (name : GoString) :
    (added.entries.foldl
      (fun m entry => m.insert entry.1 (mergeValues entry.2 (m.lookup entry.1))) present).lookup
        name =
      match added.lookup name with
      | none => present.lookup name
      | some values => some (mergeValues values (present.lookup name)) := by
  have hputs : PutsAt (fun (m : ParameterMap) name => m.lookup name)
      (fun entry : Sigma fun _ : GoString => List GoValue => entry.1)
      (fun found entry => some (mergeValues entry.2 found))
      (fun m entry => m.insert entry.1 (mergeValues entry.2 (m.lookup entry.1))) := by
    intro m entry key
    by_cases heq : entry.1 = key
    · subst heq
      rw [if_pos rfl]
      exact AList.lookup_insert _
    · rw [if_neg heq]
      exact AList.lookup_insert_ne (Ne.symm heq)
  rw [hputs.look_foldl added.entries present name, filter_key added.nodupKeys]
  cases hlook : added.lookup name with
  | none =>
    rw [show added.entries.dlookup name = none from hlook]
    rfl
  | some values =>
    rw [show added.entries.dlookup name = some values from hlook]
    rfl

theorem listed_mergeParameters (existing added : Option ParameterMap) :
    listed (mergeParameters existing added) = listed existing ⊔ listed added := by
  funext name
  simp only [Pi.sup_apply]
  have hnone : listed none name = ⊥ := rfl
  cases added with
  | none => rw [hnone, sup_bot_eq]; rfl
  | some added =>
    simp only [mergeParameters]
    split
    · rename_i hempty
      have hlook : added.lookup name = none := by
        rw [AList.lookup, List.isEmpty_iff.mp hempty]
        rfl
      have hbot : listed (some added) name = ⊥ := congrArg valuesOf hlook
      rw [hbot, sup_bot_eq]
    cases existing with
    | none => rw [hnone, bot_sup_eq]
    | some present =>
      simp only [listed, listedIn, Option.getD_some, lookup_merged]
      cases added.lookup name with
      | none => exact (sup_bot_eq _).symm
      | some values => exact valuesOf_mergeValues values _

theorem mem_mergeRequired {existing added : List GoString} {name : GoString} :
    name ∈ mergeRequired existing added ↔ name ∈ existing ∨ name ∈ added := by
  have hfold : ∀ names : List GoString, name ∈ added.foldl
      (fun names name => if name ∈ names then names else names ++ [name]) names ↔
        name ∈ names ∨ name ∈ added := by
    induction added with
    | nil => simp
    | cons first added ih =>
      intro names
      rw [List.foldl_cons, ih, List.mem_cons]
      split_ifs with hmem
      · constructor
        · rintro (h | h)
          · exact .inl h
          · exact .inr (.inr h)
        · rintro (h | rfl | h)
          · exact .inl h
          · exact .inl hmem
          · exact .inr h
      · rw [List.mem_append, List.mem_singleton, or_assoc]
  unfold mergeRequired
  split_ifs with hadded hexisting
  · simp [hadded]
  · simp [hexisting]
  · exact hfold existing

theorem hasCapability_or (a b capability : UInt32) :
    hasCapability (a ||| b) capability =
      (hasCapability a capability || hasCapability b capability) := by
  have hbits : (a ||| b) &&& capability = (a &&& capability) ||| (b &&& capability) := by
    apply UInt32.toBitVec_inj.mp
    ext i
    simp [Bool.and_or_distrib_right]
  have hpos : ∀ x : UInt32, 0 < x ↔ x ≠ 0 := fun x => UInt32.pos_iff_ne_zero
  simp only [hasCapability, hbits, hpos, ne_eq, UInt32.or_eq_zero_iff, not_and_or,
    Bool.decide_or]

variable {lib : Library}

theorem grantOf_mergePermissions {existing added : ACLPermissions} (policy : Policy)
    (hadded : added.denies = false) :
    grantOf (mergePermissions lib existing policy added) = grantOf existing ⊔ grantOf added := by
  rw [mergePermissions, if_neg (by simp [hadded])]
  apply Grant.ext
  · rfl
  · exact listed_mergeParameters _ _
  · exact listed_mergeParameters _ _
  · ext name
    exact mem_mergeRequired

theorem denies_mergePermissions (lib : Library) (existing added : ACLPermissions)
    (policy : Policy) (hexisting : existing.denies = false) :
    (mergePermissions lib existing policy added).denies = added.denies := by
  unfold mergePermissions
  split
  · rename_i hadded
    rw [hadded]
    show hasCapability denyCapabilityInt denyCapabilityInt = true
    decide
  show hasCapability (existing.capabilitiesBitmap ||| added.capabilitiesBitmap) _ = _
  rw [hasCapability_or]
  show (existing.denies || added.denies) = _
  rw [hexisting, Bool.false_or]

def summaryOf : Option ACLPermissions → WithTop Grant
  | none => ⊥
  | some p => summary p

theorem summaryOf_absorb (lib : Library) (present : Option ACLPermissions) (entry : Entry) :
    summaryOf (absorb lib present entry) = summaryOf present ⊔ summary entry.2.permissions := by
  cases present with
  | none =>
    rw [summaryOf, bot_sup_eq]
    rfl
  | some existing =>
    simp only [absorb]
    by_cases hexisting : existing.denies = true
    · simp [summaryOf, summary, hexisting]
    rw [if_neg hexisting]
    rw [Bool.not_eq_true] at hexisting
    have hmerged := denies_mergePermissions lib existing entry.2.permissions entry.1 hexisting
    by_cases hadded : entry.2.permissions.denies = true
    · simp [summaryOf, summary, hmerged, hadded]
    · rw [Bool.not_eq_true] at hadded
      simp only [summaryOf, summary, hmerged, hexisting, hadded, Bool.false_eq_true, if_false]
      rw [grantOf_mergePermissions entry.1 hadded, WithTop.coe_sup]

def rulesFor (policies : List (Option Policy)) (pattern : Pattern) : List ACLPermissions :=
  ((ruleEntries policies).filter fun entry => entry.2.pattern = pattern).map (·.2.permissions)

variable {p : ACLPermissions}

theorem summary_mergedPermissions {policies : List (Option Policy)} {pattern : Pattern}
    (h : mergedPermissions lib (ruleEntries policies) pattern = some p) :
    summary p = joinAll ((rulesFor policies pattern).map summary) := by
  have hfold := view_foldl (summaryOf_absorb lib)
    ((ruleEntries policies).filter fun entry => entry.2.pattern = pattern) none
  rw [← mergedPermissions, h, summaryOf, summaryOf, bot_sup_eq] at hfold
  rw [hfold, rulesFor, List.map_map]
  rfl

/-! Decisions -/

def Matching (lib : Library) (v : GoValue) (values : Set GoValue) : Prop :=
  ∃ el ∈ values, valueMatches lib v el = true

def AllowsValue (lib : Library) (v : GoValue) (values : Set GoValue) : Prop :=
  Matching lib v values ∨ (lib.legacyExactMatching = false ∧
    ∃ elements ∈ sliceElements lib v, ∀ element ∈ elements, Matching lib element values)

def DeniesValue (lib : Library) (v : GoValue) (values : Set GoValue) : Prop :=
  Matching lib v values ∨ (lib.legacyExactMatching = false ∧
    ∃ elements ∈ sliceElements lib v, ∃ element ∈ elements, Matching lib element values)

/-- The parameter is listed, with values as required or with every value. -/
def Lists (values : WithBot (WithTop (Set GoValue))) (required : Set GoValue → Prop) : Prop :=
  values = ⊤ ∨ ∃ S : Set GoValue, values = ((S : WithTop (Set GoValue)) :) ∧ required S

def PermitsParameters (lib : Library) (g : Grant) (data : GoMap) : Prop :=
  (∀ name ∈ g.required, (lastValue data (lib.toLower name)).isSome) ∧
    (data = [] ∨
      ((g.denied (ofString "*") = ⊥ ∧ ∀ entry ∈ mapEntries data,
          ¬ Lists (g.denied (lib.toLower entry.1)) (DeniesValue lib entry.2)) ∧
        ((∀ name, name ≠ ofString "*" → g.allowed name = ⊥) ∨ ∀ entry ∈ mapEntries data,
          (g.allowed (lib.toLower entry.1) = ⊥ ∧ g.allowed (ofString "*") ≠ ⊥) ∨
            Lists (g.allowed (lib.toLower entry.1)) (AllowsValue lib entry.2))))

def Permits (lib : Library) (g : Grant) (op : Operation) (data : GoMap) : Prop :=
  (∃ capability ∈ operationCapability op, hasCapability g.capabilities capability = true) ∧
    (checksParameters op = true → PermitsParameters lib g data)

/-- What is permitted, wrapping times apart; a denial permits nothing. -/
def Permitted (lib : Library) (s : WithTop Grant) (op : Operation) (data : GoMap) : Prop :=
  ∃ g : Grant, s = g ∧ Permits lib g op data

theorem valuesOf_eq_bot {values : Option (List GoValue)} : valuesOf values = ⊥ ↔ values = none := by
  cases values with
  | none => simp [valuesOf]
  | some values => cases values <;> simp [valuesOf]

theorem not_lists_none (required : Set GoValue → Prop) : ¬ Lists (valuesOf none) required := by
  rintro (htop | ⟨S, hS, _⟩)
  · cases htop
  · cases hS

variable {values : List GoValue}

theorem lists_some {required : Set GoValue → Prop} :
    Lists (valuesOf (some values)) required ↔ values = [] ∨ required {v | v ∈ values} := by
  cases values with
  | nil => simp [Lists, valuesOf]
  | cons value values =>
    constructor
    · rintro (htop | ⟨S, hS, h⟩)
      · exact (WithTop.coe_ne_top (WithBot.coe_inj.mp htop)).elim
      · rw [WithTop.coe_inj.mp (WithBot.coe_inj.mp hS)]
        exact .inr h
    · rintro (hnil | h)
      · cases hnil
      · exact .inr ⟨_, rfl, h⟩

variable {v : GoValue}

theorem matching_iff :
    valueInParameterList lib v values = true ↔ Matching lib v {el | el ∈ values} := by
  rw [valueInParameterList, List.any_eq_true]
  rfl

theorem valueInAllowed_iff :
    valueInAllowedParameterList lib v values = true ↔
      Lists (valuesOf (some values)) (AllowsValue lib v) := by
  rw [lists_some, valueInAllowedParameterList, AllowsValue]
  cases sliceElements lib v <;> simp [matching_iff, or_assoc]

theorem valueInDenied_iff :
    valueInDeniedParameterList lib v values = true ↔
      Lists (valuesOf (some values)) (DeniesValue lib v) := by
  rw [lists_some, valueInDeniedParameterList, DeniesValue]
  cases sliceElements lib v <;> simp [matching_iff, or_assoc]

theorem lookup_of_isEmpty {m : ParameterMap} (h : m.entries.isEmpty = true) (name : GoString) :
    m.lookup name = none := by
  rw [AList.lookup, List.isEmpty_iff.mp h]
  rfl

variable {data : GoMap}

theorem deniedParametersPass_iff {denied : ParameterMap} :
    deniedParametersPass lib denied data = true ↔
      listedIn denied (ofString "*") = ⊥ ∧ ∀ entry ∈ mapEntries data,
        ¬ Lists (listedIn denied (lib.toLower entry.1)) (DeniesValue lib entry.2) := by
  have hentry : ∀ entry, deniedEntryPasses lib denied entry = true ↔
      ¬ Lists (listedIn denied (lib.toLower entry.1)) (DeniesValue lib entry.2) := by
    intro entry
    unfold deniedEntryPasses listedIn
    cases denied.lookup (lib.toLower entry.1) with
    | none => simp [not_lists_none]
    | some values => rw [← valueInDenied_iff, Bool.not_eq_true', Bool.not_eq_true]
  by_cases hempty : denied.entries.isEmpty = true
  · have hnone := lookup_of_isEmpty hempty
    simp [deniedParametersPass, hempty, listedIn, hnone, not_lists_none, valuesOf_eq_bot]
  · simp only [deniedParametersPass, hempty, Bool.false_or, Bool.and_eq_true, List.all_eq_true,
      hentry, Option.isNone_iff_eq_none, listedIn, valuesOf_eq_bot]

theorem only_asterisk_iff {m : ParameterMap} :
    (m.entries.isEmpty || (m.entries.length == 1 && (m.lookup (ofString "*")).isSome)) = true ↔
      ∀ name, name ≠ ofString "*" → listedIn m name = ⊥ := by
  have hkeys : (∀ name, name ≠ ofString "*" → listedIn m name = ⊥) ↔
      ∀ name ∈ m.keys, name = ofString "*" := by
    simp only [listedIn, valuesOf_eq_bot, AList.lookup_eq_none, ← AList.mem_keys]
    exact forall_congr' fun name => not_imp_not
  have hlength : m.entries.length = m.keys.length := (List.length_map _).symm
  have hempty : m.entries.isEmpty = m.keys.isEmpty := by
    rw [AList.keys, List.keys, List.isEmpty_map]
  have hlook : (m.lookup (ofString "*")).isSome = true ↔ ofString "*" ∈ m.keys :=
    AList.lookup_isSome
  rw [hkeys, hempty, hlength, Bool.or_eq_true, Bool.and_eq_true, hlook]
  have hnodup := m.keys_nodup
  generalize m.keys = keys at hnodup ⊢
  rcases keys with _ | ⟨first, _ | ⟨second, rest⟩⟩
  · simp
  · simp [eq_comm]
  have hne : first ≠ second := by
    rintro rfl
    simp at hnodup
  simp only [List.isEmpty_cons, Bool.false_eq_true, List.length_cons, beq_iff_eq, false_or,
    List.mem_cons, forall_eq_or_imp]
  constructor
  · rintro ⟨hone, _⟩
    omega
  · rintro ⟨hfirst, hsecond, _⟩
    exact (hne (hfirst.trans hsecond.symm)).elim

theorem allowedParametersPass_iff {allowed : ParameterMap} :
    allowedParametersPass lib allowed data = true ↔
      (∀ name, name ≠ ofString "*" → listedIn allowed name = ⊥) ∨ ∀ entry ∈ mapEntries data,
        (listedIn allowed (lib.toLower entry.1) = ⊥ ∧ listedIn allowed (ofString "*") ≠ ⊥) ∨
          Lists (listedIn allowed (lib.toLower entry.1)) (AllowsValue lib entry.2) := by
  have hentry : ∀ entry, allowedEntryPasses lib allowed entry = true ↔
      (listedIn allowed (lib.toLower entry.1) = ⊥ ∧ listedIn allowed (ofString "*") ≠ ⊥) ∨
        Lists (listedIn allowed (lib.toLower entry.1)) (AllowsValue lib entry.2) := by
    intro entry
    unfold allowedEntryPasses listedIn
    cases allowed.lookup (lib.toLower entry.1) with
    | none => simp [not_lists_none, valuesOf_eq_bot, Option.isSome_iff_ne_none]
    | some values => simp [← valueInAllowed_iff, valuesOf_eq_bot]
  rw [allowedParametersPass, Bool.or_eq_true, only_asterisk_iff, List.all_eq_true]
  simp only [hentry]

theorem parametersPass_iff :
    parametersPass lib p data = true ↔ PermitsParameters lib (grantOf p) data := by
  rw [parametersPass, Bool.and_eq_true, Bool.or_eq_true, Bool.and_eq_true,
    deniedParametersPass_iff, allowedParametersPass_iff, hasRequiredParameters, List.all_eq_true,
    List.isEmpty_iff]
  rfl

def DenyAlone (p : ACLPermissions) : Prop :=
  p.denies = true → p.capabilitiesBitmap = denyCapabilityInt

theorem denyAlone_foldl_absorb (lib : Library) {entries : List Entry}
    (hentries : ∀ entry ∈ entries, DenyAlone entry.2.permissions)
    {present : Option ACLPermissions} (hpresent : ∀ p ∈ present, DenyAlone p) :
    ∀ p ∈ entries.foldl (absorb lib) present, DenyAlone p := by
  induction entries generalizing present with
  | nil => exact hpresent
  | cons entry entries ih =>
    apply ih fun entry' hmem => hentries entry' (.tail _ hmem)
    have hentry := hentries entry (.head _)
    cases present with
    | none =>
      rintro p ⟨⟩
      exact hentry
    | some existing =>
      simp only [absorb]
      split
      · exact hpresent
      rename_i hexisting
      rw [Bool.not_eq_true] at hexisting
      rintro p ⟨⟩ hdenies
      rw [denies_mergePermissions lib _ _ _ hexisting] at hdenies
      rw [mergePermissions, if_pos hdenies]

theorem denyAlone_mergedPermissions {policies : List (Option Policy)}
    (hparsed : ParsedPolicies lib policies) {pattern : Pattern}
    (h : mergedPermissions lib (ruleEntries policies) pattern = some p) : DenyAlone p := by
  apply denyAlone_foldl_absorb lib _ _ p h
  · intro entry hentry
    obtain ⟨block, hblock⟩ := hparsed.block (List.mem_of_mem_filter hentry)
    exact (permissions_of_parsePath hblock).1
  · intro p hp
    cases hp

theorem capabilities_of_summary_eq {p q : ACLPermissions} (hp : DenyAlone p) (hq : DenyAlone q)
    (h : summary p = summary q) : p.capabilitiesBitmap = q.capabilitiesBitmap := by
  unfold summary at h
  split_ifs at h with hpd hqd hqd
  · rw [hp hpd, hq hqd]
  · cases h
  · cases h
  · exact congrArg Grant.capabilities (WithTop.coe_inj.mp h)

variable {op : Operation}

theorem permitted_coe {g : Grant} :
    Permitted lib (g : WithTop Grant) op data ↔ Permits lib g op data := by
  constructor
  · rintro ⟨h, heq, hpermits⟩
    rw [WithTop.coe_inj.mp heq]
    exact hpermits
  · exact fun hpermits => ⟨g, rfl, hpermits⟩

theorem not_permitted_top : ¬ Permitted lib ⊤ op data := by
  rintro ⟨g, heq, _⟩
  cases heq

theorem hasCapability_deny {capability : UInt32} (h : operationCapability op = some capability) :
    hasCapability denyCapabilityInt capability = false := by
  cases op <;> cases h <;> decide

theorem allowed_checkPermissions_iff {req : WrappedRequest} (hdeny : DenyAlone p) :
    (checkPermissions lib p req false).allowed = true ↔
      Permitted lib (summary p) req.operation (req.data.getD []) ∧
        wrappingPasses p.minWrappingTTL p.maxWrappingTTL req.wrapInfo = true := by
  simp only [checkPermissions, Bool.false_eq_true, if_false, summary]
  by_cases hdenies : p.denies = true
  · rw [if_pos hdenies, hdeny hdenies]
    cases hcapability : operationCapability req.operation with
    | none => simp [not_permitted_top]
    | some capability => simp [hasCapability_deny hcapability, not_permitted_top]
  rw [if_neg hdenies, permitted_coe, Permits]
  cases hcapability : operationCapability req.operation with
  | none => simp
  | some capability =>
    by_cases hhas : hasCapability p.capabilitiesBitmap capability = true
    · have hgrant : hasCapability (grantOf p).capabilities capability = true := hhas
      rw [← parametersPass_iff, and_comm]
      cases checksParameters req.operation <;> simp [hhas, hgrant]
    · have hgrant : ¬ hasCapability (grantOf p).capabilities capability = true := hhas
      simp [hhas, hgrant]

end VaultProofs.AclGrants
