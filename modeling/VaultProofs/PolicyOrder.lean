import VaultProofs.AclGrants
import VaultProofs.AclPrecedence

/-!
What a list of policies authorizes, and whether their order matters.
-/

namespace VaultProofs.PolicyOrder

open GoStrings JsonValues TableFolds ApprovalEntries AclPolicies AclRules AclLookup AclOperations
open AclGrants AclPrecedence

/-! Limits -/

def IsLimit (ttls : List Duration) (limit : Duration) : Prop :=
  (limit = 0 ∧ ∀ ttl ∈ ttls, ttl ≤ 0) ∨
    (0 < limit ∧ limit ∈ ttls ∧ ∀ ttl ∈ ttls, 0 < ttl → limit ≤ ttl)

theorem foldl_mergeTTL_of_neg {first : Duration} (h : first < 0) (rest : List Duration) :
    rest.foldl mergeTTL first = first := by
  induction rest with
  | nil => rfl
  | cons ttl rest ih =>
    have hkept : mergeTTL first ttl = first := by
      rw [mergeTTL, if_neg]
      rintro ⟨hpos, hzero | hless⟩
      · exact absurd hzero (ne_of_lt h)
      · exact absurd (hless.trans h) (not_lt.mpr hpos.le)
    rw [List.foldl_cons, hkept, ih]

theorem isLimit_foldl_mergeTTL {first : Duration} (h : 0 ≤ first) (rest : List Duration) :
    IsLimit (first :: rest) (rest.foldl mergeTTL first) := by
  induction rest generalizing first with
  | nil =>
    rcases h.eq_or_lt with hzero | hpos
    · exact .inl ⟨hzero.symm, by simp [← hzero]⟩
    · exact .inr ⟨hpos, by simp, by simp⟩
  | cons ttl rest ih =>
    rw [List.foldl_cons]
    by_cases htaken : 0 < ttl ∧ (first = 0 ∨ ttl < first)
    · have hmerged : mergeTTL first ttl = ttl := if_pos htaken
      rw [hmerged]
      rcases ih htaken.1.le with ⟨_, hnone⟩ | ⟨hpos, hmem, hleast⟩
      · exact absurd (hnone ttl (.head _)) (not_le.mpr htaken.1)
      refine .inr ⟨hpos, .tail _ hmem, ?_⟩
      intro t ht htpos
      rcases List.mem_cons.mp ht with rfl | ht
      · have hless := htaken.2.resolve_left htpos.ne'
        exact (hleast ttl List.mem_cons_self htaken.1).trans hless.le
      · exact hleast t ht htpos
    have hmerged : mergeTTL first ttl = first := if_neg htaken
    rw [hmerged]
    have hkept : 0 < ttl → first ≠ 0 ∧ first ≤ ttl := by
      intro hpos
      exact ⟨fun hzero => htaken ⟨hpos, .inl hzero⟩,
        not_lt.mp fun hless => htaken ⟨hpos, .inr hless⟩⟩
    rcases ih h with ⟨hzero, hnone⟩ | ⟨hpos, hmem, hleast⟩
    · refine .inl ⟨hzero, ?_⟩
      have hfirst : first = 0 := le_antisymm (hnone first (.head _)) h
      rintro t (_ | ⟨_, _ | ⟨_, ht⟩⟩)
      · exact hfirst.le
      · exact not_lt.mp fun hpos => (hkept hpos).1 hfirst
      · exact hnone t (.tail _ ht)
    refine .inr ⟨hpos, ?_, ?_⟩
    · rcases List.mem_cons.mp hmem with heq | hmem
      · rw [heq]
        exact (.head _)
      · exact .tail _ (.tail _ hmem)
    rintro t (_ | ⟨_, _ | ⟨_, ht⟩⟩) htpos
    · exact hleast first List.mem_cons_self htpos
    · obtain ⟨hne, hle⟩ := hkept htpos
      exact (hleast first (.head _) (lt_of_le_of_ne h hne.symm)).trans hle
    · exact hleast t (.tail _ ht) htpos

variable {ttls : List Duration} {limit : Duration}

theorem IsLimit.max_iff (h : IsLimit ttls limit) (wrapInfo : Option Duration) :
    (limit ≤ 0 ∨ ∃ ttl ∈ wrapInfo, ttl ≤ limit) ↔
      ∀ bound ∈ ttls, 0 < bound → ∃ ttl ∈ wrapInfo, ttl ≤ bound := by
  rcases h with ⟨hzero, hnone⟩ | ⟨hpos, hmem, hleast⟩
  · constructor
    · intro _ bound hbound hpos
      exact absurd (hnone bound hbound) (not_le.mpr hpos)
    · exact fun _ => .inl hzero.le
  constructor
  · rintro (hle | ⟨ttl, httl, hle⟩) bound hbound hbpos
    · exact absurd hle (not_le.mpr hpos)
    · exact ⟨ttl, httl, hle.trans (hleast bound hbound hbpos)⟩
  · exact fun hall => .inr (hall limit hmem hpos)

theorem IsLimit.min_iff (h : IsLimit ttls limit) (wrapInfo : Option Duration) :
    (limit ≤ 0 ∨ ∃ ttl ∈ wrapInfo, limit ≤ ttl) ↔
      (∀ bound ∈ ttls, bound ≤ 0) ∨
        ∃ bound ∈ ttls, 0 < bound ∧ ∃ ttl ∈ wrapInfo, bound ≤ ttl := by
  rcases h with ⟨hzero, hnone⟩ | ⟨hpos, hmem, hleast⟩
  · exact ⟨fun _ => .inl hnone, fun _ => .inl hzero.le⟩
  constructor
  · rintro (hle | ⟨ttl, httl, hle⟩)
    · exact absurd hle (not_le.mpr hpos)
    · exact .inr ⟨limit, hmem, hpos, ttl, httl, hle⟩
  · rintro (hall | ⟨bound, hbound, hbpos, ttl, httl, hle⟩)
    · exact absurd (hall limit hmem) (not_le.mpr hpos)
    · exact .inr ⟨ttl, httl, (hleast bound hbound hbpos).trans hle⟩

/-- Which wrapping times the rules of a pattern admit when `first` comes first. Its negative limit
lifts the limits of the others, and a negative maximum goes with no minimum. -/
def WrapAdmitted (first : ACLPermissions) (rules : List ACLPermissions)
    (wrapInfo : Option Duration) : Prop :=
  (first.maxWrappingTTL < 0 ∨
      ∀ rule ∈ rules, 0 < rule.maxWrappingTTL → ∃ ttl ∈ wrapInfo, ttl ≤ rule.maxWrappingTTL) ∧
    (first.minWrappingTTL < 0 ∨ (∀ rule ∈ rules, rule.minWrappingTTL ≤ 0) ∨
      (0 ≤ first.maxWrappingTTL ∧
        ∃ rule ∈ rules, 0 < rule.minWrappingTTL ∧ ∃ ttl ∈ wrapInfo, rule.minWrappingTTL ≤ ttl))

theorem IsLimit.nonneg (h : IsLimit ttls limit) : 0 ≤ limit := by
  rcases h with ⟨hzero, _⟩ | ⟨hpos, _⟩
  · exact hzero.ge
  · exact hpos.le

theorem wrappingPasses_iff {minTTL maxTTL : Duration} {wrapInfo : Option Duration} :
    wrappingPasses minTTL maxTTL wrapInfo = true ↔
      (maxTTL ≤ 0 ∨ ∃ ttl ∈ wrapInfo, ttl ≤ maxTTL) ∧
        (minTTL ≤ 0 ∨ ∃ ttl ∈ wrapInfo, minTTL ≤ ttl) ∧
          ¬ (minTTL ≠ 0 ∧ maxTTL ≠ 0 ∧ maxTTL < minTTL) := by
  have hany : ∀ P : Duration → Bool,
      wrapInfo.any P = true ↔ ∃ ttl ∈ wrapInfo, P ttl = true := by
    intro P
    cases wrapInfo <;> simp
  simp only [wrappingPasses, Bool.and_eq_true, Bool.or_eq_true, decide_eq_true_eq, hany,
    Bool.not_eq_true', decide_eq_false_iff_not, and_assoc]

theorem limits_in_order {minTTL maxTTL : Duration} {wrapInfo : Option Duration}
    (hM : 0 ≤ maxTTL) (hm : 0 ≤ minTTL) (hmax : maxTTL ≤ 0 ∨ ∃ ttl ∈ wrapInfo, ttl ≤ maxTTL)
    (hmin : minTTL ≤ 0 ∨ ∃ ttl ∈ wrapInfo, minTTL ≤ ttl) :
    ¬ (minTTL ≠ 0 ∧ maxTTL ≠ 0 ∧ maxTTL < minTTL) := by
  rintro ⟨hmne, hMne, hless⟩
  obtain ⟨ttl, httl, hle⟩ := hmax.resolve_left fun h => hMne (le_antisymm h hM)
  obtain ⟨ttl', httl', hge⟩ := hmin.resolve_left fun h => hmne (le_antisymm h hm)
  obtain rfl : ttl = ttl' := Option.mem_unique httl httl'
  exact absurd (hge.trans hle) (not_le.mpr hless)

theorem wrappingPasses_merged {first : ACLPermissions} {rest : List ACLPermissions}
    (hfirst : ¬ (first.minWrappingTTL ≠ 0 ∧ first.maxWrappingTTL ≠ 0 ∧
      first.maxWrappingTTL < first.minWrappingTTL)) (wrapInfo : Option Duration) :
    wrappingPasses ((rest.map (·.minWrappingTTL)).foldl mergeTTL first.minWrappingTTL)
        ((rest.map (·.maxWrappingTTL)).foldl mergeTTL first.maxWrappingTTL) wrapInfo = true ↔
      WrapAdmitted first (first :: rest) wrapInfo := by
  have hmax := fun h : 0 ≤ first.maxWrappingTTL =>
    isLimit_foldl_mergeTTL h (rest.map (·.maxWrappingTTL))
  have hmin := fun h : 0 ≤ first.minWrappingTTL =>
    isLimit_foldl_mergeTTL h (rest.map (·.minWrappingTTL))
  rw [← List.map_cons (f := fun rule : ACLPermissions => rule.maxWrappingTTL)] at hmax
  rw [← List.map_cons (f := fun rule : ACLPermissions => rule.minWrappingTTL)] at hmin
  rw [wrappingPasses_iff, WrapAdmitted]
  rcases lt_or_ge first.maxWrappingTTL 0 with hM | hM
  · rw [foldl_mergeTTL_of_neg hM]
    rcases lt_or_ge first.minWrappingTTL 0 with hm | hm
    · rw [foldl_mergeTTL_of_neg hm]
      exact iff_of_true ⟨.inl hM.le, .inl hm.le, hfirst⟩ ⟨.inl hM, .inl hm⟩
    rcases hmin hm with ⟨hzero, hnone⟩ | ⟨hpos, hmem, _⟩
    · rw [List.forall_mem_map] at hnone
      exact iff_of_true ⟨.inl hM.le, .inl hzero.le, fun h => h.1 hzero⟩
        ⟨.inl hM, .inr (.inl hnone)⟩
    obtain ⟨rule, hrule, heq⟩ := List.mem_map.mp hmem
    apply iff_of_false
    · exact fun h => h.2.2 ⟨hpos.ne', hM.ne, hM.trans hpos⟩
    rintro ⟨_, hneg | hall | ⟨hge, _⟩⟩
    · exact absurd hneg (not_lt.mpr hm)
    · exact absurd (hall rule hrule) (not_le.mpr (heq ▸ hpos))
    · exact absurd hM (not_lt.mpr hge)
  have hlimit := hmax hM
  rw [hlimit.max_iff, List.forall_mem_map, or_iff_right (not_lt.mpr hM)]
  rcases lt_or_ge first.minWrappingTTL 0 with hm | hm
  · rw [foldl_mergeTTL_of_neg hm]
    have hordered := not_lt.mpr (hm.le.trans hlimit.nonneg)
    exact and_congr_right fun _ =>
      iff_of_true ⟨.inl hm.le, fun h => hordered h.2.2⟩ (.inl hm)
  have hlimit' := hmin hm
  have hiff := hlimit'.min_iff wrapInfo
  constructor
  · rintro ⟨hall, hpasses, _⟩
    refine ⟨hall, .inr ?_⟩
    rcases hiff.mp hpasses with hnone | ⟨bound, hbound, hpos, hex⟩
    · exact .inl fun rule hrule => hnone _ (List.mem_map_of_mem hrule)
    · obtain ⟨rule, hrule, rfl⟩ := List.mem_map.mp hbound
      exact .inr ⟨hM, rule, hrule, hpos, hex⟩
  rintro ⟨hall, hrest⟩
  have hpasses := hiff.mpr <| by
    rcases hrest with hneg | hnone | ⟨_, rule, hrule, hpos, hex⟩
    · exact absurd hneg (not_lt.mpr hm)
    · left
      rw [List.forall_mem_map]
      exact hnone
    · exact .inr ⟨_, List.mem_map_of_mem hrule, hpos, hex⟩
  have hmaxpasses := (hlimit.max_iff wrapInfo).mpr (List.forall_mem_map.mpr hall)
  exact ⟨hall, hpasses,
    limits_in_order hlimit.nonneg hlimit'.nonneg hmaxpasses hpasses⟩

/-! Merged rules -/

theorem limits_foldl_absorb (lib : Library) {entries : List Entry}
    (hentries : ∀ entry ∈ entries, entry.2.permissions.denies = false)
    {existing : ACLPermissions} (hexisting : existing.denies = false) :
    ∃ p, entries.foldl (absorb lib) (some existing) = some p ∧
      p.minWrappingTTL = ((entries.map (·.2.permissions)).map (·.minWrappingTTL)).foldl mergeTTL
        existing.minWrappingTTL ∧
      p.maxWrappingTTL = ((entries.map (·.2.permissions)).map (·.maxWrappingTTL)).foldl mergeTTL
        existing.maxWrappingTTL := by
  induction entries generalizing existing with
  | nil => exact ⟨existing, rfl, rfl, rfl⟩
  | cons entry entries ih =>
    have hentry := hentries entry (.head _)
    have habsorb : absorb lib (some existing) entry =
        some (mergePermissions lib existing entry.1 entry.2.permissions) := by
      simp [absorb, hexisting]
    have hmerged :
        (mergePermissions lib existing entry.1 entry.2.permissions).denies = false := by
      rw [denies_mergePermissions lib existing _ _ hexisting, hentry]
    obtain ⟨p, hfold, hmin, hmax⟩ :=
      ih (fun entry' hmem => hentries entry' (.tail _ hmem)) hmerged
    refine ⟨p, ?_, ?_, ?_⟩
    · rw [List.foldl_cons, habsorb, hfold]
    · rw [hmin, mergePermissions, if_neg (by simp [hentry])]
      rfl
    · rw [hmax, mergePermissions, if_neg (by simp [hentry])]
      rfl

theorem wrapping_mergedPermissions {lib : Library} {policies : List (Option Policy)}
    (hparsed : ParsedPolicies lib policies) {pattern : Pattern} {p first : ACLPermissions}
    (hmerged : mergedPermissions lib (ruleEntries policies) pattern = some p)
    (hfirst : (rulesFor policies pattern).head? = some first)
    (hnone : ∀ rule ∈ rulesFor policies pattern, rule.denies = false)
    (wrapInfo : Option Duration) :
    wrappingPasses p.minWrappingTTL p.maxWrappingTTL wrapInfo = true ↔
      WrapAdmitted first (rulesFor policies pattern) wrapInfo := by
  have hrule : ∀ entry ∈ (ruleEntries policies).filter fun entry => entry.2.pattern = pattern,
      ∃ block, parsePath lib entry.1.space block = .ok entry.2 :=
    fun entry hentry => hparsed.block (List.mem_of_mem_filter hentry)
  unfold mergedPermissions at hmerged
  unfold rulesFor at hfirst hnone ⊢
  generalize (ruleEntries policies).filter (fun entry => entry.2.pattern = pattern) = entries
    at hmerged hfirst hnone hrule ⊢
  cases entries with
  | nil => cases hfirst
  | cons entry entries =>
    obtain rfl : entry.2.permissions = first := by simpa using hfirst
    obtain ⟨block, hblock⟩ := hrule entry (.head _)
    rw [List.forall_mem_map] at hnone
    have hfresh : (freshPermissions entry.1 entry.2.permissions).denies = false :=
      hnone entry (.head _)
    obtain ⟨p', hfold, hmin, hmax⟩ := limits_foldl_absorb lib
      (fun entry' hmem => hnone entry' (.tail _ hmem)) hfresh
    obtain rfl : p' = p := Option.some.inj (hfold.symm.trans hmerged)
    rw [hmin, hmax]
    exact wrappingPasses_merged (permissions_of_parsePath hblock).2 wrapInfo

/-! Permuted policies -/

variable {lib : Library} {space : Namespace} {policies policies' : List (Option Policy)}
  {acl acl' : ACL} {order order' : List GoString}

def SameDecisions (lib : Library) (acl acl' : ACL) (order order' : List GoString)
    (caller : Namespace) (req : WrappedRequest) : Prop :=
  (∀ capCheckOnly,
    (allowOperation lib acl order caller req capCheckOnly).allowed =
        (allowOperation lib acl' order' caller req capCheckOnly).allowed ∧
      (allowOperation lib acl order caller req capCheckOnly).rootPrivs =
        (allowOperation lib acl' order' caller req capCheckOnly).rootPrivs) ∧
    (allowOperation lib acl order caller req true).capabilitiesBitmap =
      (allowOperation lib acl' order' caller req true).capabilitiesBitmap

/-- For every pattern that decides about the request, the rules do not permit it, or both first
rules admit its wrapping time, or neither does. -/
def LimitsAgree (lib : Library) (policies policies' : List (Option Policy)) (caller : Namespace)
    (req : WrappedRequest) : Prop :=
  ∀ pattern,
    Deciding (patternsOf (ruleEntries policies)) req.operation (aclPath caller req.path)
      (some pattern) →
    Permitted lib (joinAll ((rulesFor policies pattern).map summary)) req.operation
      (req.data.getD []) →
    ∀ first ∈ (rulesFor policies pattern).head?, ∀ first' ∈ (rulesFor policies' pattern).head?,
      (WrapAdmitted first (rulesFor policies pattern) req.wrapInfo ↔
        WrapAdmitted first' (rulesFor policies pattern) req.wrapInfo)

theorem rootPrivs_checkPermissions (p : ACLPermissions) (req : WrappedRequest)
    (capCheckOnly : Bool) :
    (checkPermissions lib p req capCheckOnly).rootPrivs =
      hasCapability p.capabilitiesBitmap sudoCapabilityInt := by
  unfold checkPermissions
  cases capCheckOnly with
  | true => rfl
  | false =>
    simp only [Bool.false_eq_true, if_false]
    split
    · rfl
    · split <;> rfl

variable {pattern : Pattern}

theorem exists_first {p : ACLPermissions}
    (h : mergedPermissions lib (ruleEntries policies) pattern = some p) :
    ∃ first, (rulesFor policies pattern).head? = some first := by
  unfold mergedPermissions at h
  unfold rulesFor
  cases hentries : (ruleEntries policies).filter fun entry => entry.2.pattern = pattern with
  | nil =>
    rw [hentries] at h
    cases h
  | cons entry entries => exact ⟨_, rfl⟩

theorem not_denies_of_permitted {op : Operation} {data : GoMap}
    (h : Permitted lib (joinAll ((rulesFor policies pattern).map summary)) op data) :
    ∀ rule ∈ rulesFor policies pattern, rule.denies = false := by
  intro rule hrule
  by_contra hdenies
  have htop : summary rule = ⊤ := if_pos (Bool.eq_true_of_not_eq_false hdenies)
  have hle := le_joinAll (List.mem_map_of_mem (f := summary) hrule)
  rw [htop, top_le_iff] at hle
  rw [hle] at h
  exact not_permitted_top h

section

variable (hperm : policies.Perm policies')

include hperm

theorem rulesFor_perm (pattern : Pattern) :
    (rulesFor policies pattern).Perm (rulesFor policies' pattern) :=
  ((ruleEntries_perm hperm).filter _).map _

theorem exists_newACL_perm :
    (∃ acl, newACL lib space policies = .ok acl) ↔ ∃ acl, newACL lib space policies' = .ok acl := by
  simp only [newACL_eq_ok_iff, exists_and_left, exists_eq, and_true, hperm.mem_iff,
    hperm.length_eq]

theorem eq_of_root (hacl : newACL lib space policies = .ok acl) (hroot : acl.root = true) :
    policies = policies' := by
  rw [root_newACL hacl, List.any_eq_true] at hroot
  obtain ⟨policy, hmem, hroot⟩ := hroot
  have hadmissible := (newACL_eq_ok_iff.mp hacl).1 policy hmem
  cases policy with
  | none => cases hroot
  | some policy =>
    simp only [isRootPolicy, Bool.and_eq_true, decide_eq_true_eq] at hroot
    rcases hadmissible with hrgp | ⟨_, hcount⟩
    · rw [hrgp] at hroot
      cases hroot.1
    · obtain ⟨only, rfl⟩ := List.length_eq_one_iff.mp (hcount hroot.2).2
      exact List.singleton_perm.mp hperm

theorem limitsAgree_of_nonneg
    (h : ∀ pattern, ∀ rule ∈ rulesFor policies pattern,
      0 ≤ rule.minWrappingTTL ∧ 0 ≤ rule.maxWrappingTTL) (caller : Namespace)
    (req : WrappedRequest) : LimitsAgree lib policies policies' caller req := by
  intro pattern _ _ first hfirst first' hfirst'
  obtain ⟨hmin, hmax⟩ := h pattern first (List.mem_of_mem_head? hfirst)
  obtain ⟨hmin', hmax'⟩ := h pattern first'
    ((rulesFor_perm hperm pattern).mem_iff.mpr (List.mem_of_mem_head? hfirst'))
  simp only [WrapAdmitted, not_lt.mpr hmin, not_lt.mpr hmax, not_lt.mpr hmin', not_lt.mpr hmax',
    hmax, hmax', false_or]

variable (hparsed : ParsedPolicies lib policies)

include hparsed

/-- The permissions merged in the two orders differ in the wrapping times they admit. -/
theorem allowed_merged_iff {p p' : ACLPermissions}
    (hp : mergedPermissions lib (ruleEntries policies) pattern = some p)
    (hp' : mergedPermissions lib (ruleEntries policies') pattern = some p') (req : WrappedRequest) :
    (checkPermissions lib p req false).allowed = (checkPermissions lib p' req false).allowed ↔
      (Permitted lib (joinAll ((rulesFor policies pattern).map summary)) req.operation
          (req.data.getD []) →
        ∀ first ∈ (rulesFor policies pattern).head?,
          ∀ first' ∈ (rulesFor policies' pattern).head?,
            (WrapAdmitted first (rulesFor policies pattern) req.wrapInfo ↔
              WrapAdmitted first' (rulesFor policies pattern) req.wrapInfo)) := by
  have hrules := rulesFor_perm hperm pattern
  have hjoin := joinAll_perm (hrules.map summary)
  rw [Bool.eq_iff_iff, allowed_checkPermissions_iff (denyAlone_mergedPermissions hparsed hp),
    allowed_checkPermissions_iff (denyAlone_mergedPermissions (hparsed.perm hperm) hp'),
    summary_mergedPermissions hp, summary_mergedPermissions hp', ← hjoin, and_congr_right_iff]
  apply imp_congr_right
  intro hpermitted
  have hnone := not_denies_of_permitted hpermitted
  have hnone' : ∀ rule ∈ rulesFor policies' pattern, rule.denies = false :=
    fun rule hrule => hnone rule (hrules.mem_iff.mpr hrule)
  obtain ⟨first, hfirst⟩ := exists_first hp
  obtain ⟨first', hfirst'⟩ := exists_first hp'
  rw [wrapping_mergedPermissions hparsed hp hfirst hnone,
    wrapping_mergedPermissions (hparsed.perm hperm) hp' hfirst' hnone', hfirst, hfirst']
  simp [WrapAdmitted, hrules.mem_iff]

variable (hacl : newACL lib space policies = .ok acl)
  (hacl' : newACL lib space policies' = .ok acl')
  (horder : order.Perm acl.segmentWildcardPaths.keys)
  (horder' : order'.Perm acl'.segmentWildcardPaths.keys)

include hacl hacl' horder horder'

theorem findPattern_perm (op : Operation) (path : GoString) :
    Deciding (patternsOf (ruleEntries policies)) op path (findPattern acl order op path) ∧
      findPattern acl' order' op path = findPattern acl order op path := by
  have hstored' : ∀ pattern, pattern ∈ patternsOf (ruleEntries policies) ↔
      (acl'.lookup pattern).isSome :=
    fun pattern => ((ruleEntries_perm hperm).map _).mem_iff.trans (mem_patternsOf_iff hacl' pattern)
  have hdeciding := deciding_newACL hparsed hacl horder op path
  have hdeciding' :=
    deciding_findPattern hstored' horder' (wellFormed_of_parsed hparsed) op path
  exact ⟨hdeciding, hdeciding'.unique hdeciding⟩

theorem sameDecisions_iff (caller : Namespace) (req : WrappedRequest) :
    SameDecisions lib acl acl' order order' caller req ↔
      LimitsAgree lib policies policies' caller req := by
  by_cases hroot : acl.root = true
  · obtain rfl := eq_of_root hperm hacl hroot
    obtain rfl : acl = acl' := Except.ok.inj (hacl.symm.trans hacl')
    apply iff_of_true
    · simp [SameDecisions, allowOperation, hroot]
    · intro pattern _ _ first hfirst first' hfirst'
      rw [Option.mem_unique hfirst hfirst']
  have hroot' : ¬ acl'.root = true := by
    rw [root_newACL hacl'] at *
    rw [root_newACL hacl, hperm.any_eq] at hroot
    exact hroot
  by_cases hhelp : req.operation = .help
  · apply iff_of_true
    · simp [SameDecisions, allowOperation, hroot, hroot', hhelp]
    · rintro pattern _ ⟨g, _, ⟨capability, hcapability, _⟩, _⟩
      rw [hhelp] at hcapability
      cases hcapability
  obtain ⟨hdeciding, hsame⟩ := findPattern_perm hperm hparsed hacl hacl' horder horder'
    req.operation (aclPath caller req.path)
  have hallow := allowOperation_eq lib order caller hroot hhelp
  have hallow' := allowOperation_eq lib order' caller hroot' hhelp
  rw [hsame] at hallow'
  cases hchoice : findPattern acl order req.operation (aclPath caller req.path) with
  | none =>
    rw [hchoice] at hdeciding hallow hallow'
    apply iff_of_true
    · simp [SameDecisions, hallow, hallow']
    · intro pattern hother
      cases hother.unique hdeciding
  | some pattern =>
    rw [hchoice] at hdeciding hallow hallow'
    have hmem := hdeciding.mem
    obtain ⟨p, hp⟩ := Option.isSome_iff_exists.mp
      ((isSome_mergedPermissions lib (ruleEntries policies) pattern).mpr hmem)
    obtain ⟨p', hp'⟩ := Option.isSome_iff_exists.mp
      ((isSome_mergedPermissions lib (ruleEntries policies') pattern).mpr
        (((ruleEntries_perm hperm).map _).mem_iff.mp hmem))
    have hbitmap : p.capabilitiesBitmap = p'.capabilitiesBitmap := by
      apply capabilities_of_summary_eq (denyAlone_mergedPermissions hparsed hp)
        (denyAlone_mergedPermissions (hparsed.perm hperm) hp')
      rw [summary_mergedPermissions hp, summary_mergedPermissions hp']
      exact joinAll_perm ((rulesFor_perm hperm pattern).map summary)
    rw [Option.bind_some, lookup_newACL hacl, hp] at hallow
    rw [Option.bind_some, lookup_newACL hacl', hp'] at hallow'
    have hone : SameDecisions lib acl acl' order order' caller req ↔
        (checkPermissions lib p req false).allowed =
          (checkPermissions lib p' req false).allowed := by
      simp only [SameDecisions, hallow, hallow', checkFound, rootPrivs_checkPermissions,
        hbitmap, and_true]
      constructor
      · exact fun h => h.1 false
      intro h
      refine ⟨?_, hbitmap⟩
      rintro (_ | _)
      · exact h
      · rfl
    rw [hone, allowed_merged_iff hperm hparsed hp hp']
    constructor
    · intro h pattern' hother
      obtain rfl : pattern' = pattern := Option.some.inj (hother.unique hdeciding)
      exact h
    · exact fun h => h pattern hdeciding

end

/-- An ACL is built in both orders or in neither, and two ACLs differ only in the wrapping times
they admit, where the first rule has a negative limit. -/
theorem policyOrder_iff (hparsed : ParsedPolicies lib policies)
    (hperm : policies.Perm policies') (space : Namespace) :
    ((∃ acl, newACL lib space policies = .ok acl) ↔
        ∃ acl', newACL lib space policies' = .ok acl') ∧
      ∀ acl acl', newACL lib space policies = .ok acl → newACL lib space policies' = .ok acl' →
        ∀ order order', order.Perm acl.segmentWildcardPaths.keys →
          order'.Perm acl'.segmentWildcardPaths.keys → ∀ caller req,
            (SameDecisions lib acl acl' order order' caller req ↔
              LimitsAgree lib policies policies' caller req) := by
  refine ⟨exists_newACL_perm hperm, ?_⟩
  intro acl acl' hacl hacl' order order' horder horder' caller req
  exact sameDecisions_iff hperm hparsed hacl hacl' horder horder' caller req

/-! Two policies with limits -/

/-- The rules of the deciding pattern, joined, permit the request, and its wrapping time is one they
admit. -/
def Authorizes (lib : Library) (policies : List (Option Policy)) (caller : Namespace)
    (req : WrappedRequest) : Prop :=
  ∃ pattern first,
    Deciding (patternsOf (ruleEntries policies)) req.operation (aclPath caller req.path)
      (some pattern) ∧
    Permitted lib (joinAll ((rulesFor policies pattern).map summary)) req.operation
      (req.data.getD []) ∧
    (rulesFor policies pattern).head? = some first ∧
    WrapAdmitted first (rulesFor policies pattern) req.wrapInfo

/-- An ACL other than root allows what its policies authorize and nothing else, in whatever order
maps are iterated. -/
theorem allowed_iff_authorizes (hparsed : ParsedPolicies lib policies)
    (hacl : newACL lib space policies = .ok acl) (hroot : ¬ acl.root = true)
    (horder : order.Perm acl.segmentWildcardPaths.keys) (caller : Namespace) (req : WrappedRequest)
    (hhelp : req.operation ≠ .help) :
    (allowOperation lib acl order caller req false).allowed = true ↔
      Authorizes lib policies caller req := by
  have hdeciding := deciding_newACL hparsed hacl horder req.operation (aclPath caller req.path)
  rw [allowOperation_eq lib order caller hroot hhelp]
  cases hchoice : findPattern acl order req.operation (aclPath caller req.path) with
  | none =>
    rw [hchoice] at hdeciding
    refine iff_of_false Bool.false_ne_true ?_
    rintro ⟨pattern, first, hother, -⟩
    exact absurd (hother.unique hdeciding) (Option.some_ne_none pattern)
  | some pattern =>
    rw [hchoice] at hdeciding
    obtain ⟨p, hp⟩ := Option.isSome_iff_exists.mp
      ((isSome_mergedPermissions lib (ruleEntries policies) pattern).mpr hdeciding.mem)
    rw [Option.bind_some, lookup_newACL hacl, hp, checkFound,
      allowed_checkPermissions_iff (denyAlone_mergedPermissions hparsed hp),
      summary_mergedPermissions hp]
    obtain ⟨first, hfirst⟩ := exists_first hp
    constructor
    · rintro ⟨hpermitted, hpasses⟩
      refine ⟨pattern, first, hdeciding, hpermitted, hfirst, ?_⟩
      have hnot := not_denies_of_permitted hpermitted
      exact (wrapping_mergedPermissions hparsed hp hfirst hnot _).mp hpasses
    · rintro ⟨other, first', hother, hpermitted, hfirst', hadmitted⟩
      obtain rfl : other = pattern := Option.some.inj (hother.unique hdeciding)
      have hnot := not_denies_of_permitted hpermitted
      exact ⟨hpermitted, (wrapping_mergedPermissions hparsed hp hfirst' hnot _).mpr hadmitted⟩

def limitPolicy (name : String) (ttl : Duration) : Policy where
  name := ofString name
  paths :=
    [{ path := ofString "a"
       permissions := { capabilitiesBitmap := readCapabilityInt, maxWrappingTTL := ttl } }]
  space := rootSpace

def limitBlock (ttl : Duration) : PathBlock where
  key := ofString "a"
  capabilities := [ofString "read"]
  maxWrappingTTL := some ttl

theorem parsed_limitPolicies (ttl ttl' : Duration) :
    ParsedPolicies plainLibrary
      [some (limitPolicy "first" ttl), some (limitPolicy "second" ttl')] := by
  have hone : ∀ name ttl, (limitPolicy name ttl).Parsed plainLibrary :=
    fun name ttl => ⟨[limitBlock ttl], rfl⟩
  intro policy hmem _
  obtain rfl | rfl : policy = limitPolicy "first" ttl ∨ policy = limitPolicy "second" ttl' := by
    simpa using hmem
  · exact hone _ _
  · exact hone _ _

/-- A negative limit counts as none where it comes first, and is ignored where it comes
later. -/
theorem negative_limit_order :
    ∃ acl acl',
      newACL plainLibrary rootSpace
        [some (limitPolicy "first" (-1)), some (limitPolicy "second" 10)] = .ok acl ∧
      newACL plainLibrary rootSpace
        [some (limitPolicy "second" 10), some (limitPolicy "first" (-1))] = .ok acl' ∧
      ParsedPolicies plainLibrary
        [some (limitPolicy "first" (-1)), some (limitPolicy "second" 10)] ∧
      acl.segmentWildcardPaths.keys = [] ∧ acl'.segmentWildcardPaths.keys = [] ∧
      (allowOperation plainLibrary acl [] rootSpace (readRequest "a") false).allowed = true ∧
      (allowOperation plainLibrary acl' [] rootSpace (readRequest "a") false).allowed = false ∧
      ¬ SameDecisions plainLibrary acl acl' [] [] rootSpace (readRequest "a") := by
  refine ⟨_, _, rfl, rfl, parsed_limitPolicies _ _, rfl, rfl, rfl, rfl, ?_⟩
  intro h
  exact absurd (h.1 false).1 (by decide)

theorem positive_limits_commute :
    ∃ acl acl',
      newACL plainLibrary rootSpace
        [some (limitPolicy "first" 5), some (limitPolicy "second" 10)] = .ok acl ∧
      newACL plainLibrary rootSpace
        [some (limitPolicy "second" 10), some (limitPolicy "first" 5)] = .ok acl' ∧
      SameDecisions plainLibrary acl acl' [] [] rootSpace (readRequest "a") := by
  have hperm := List.Perm.swap (some (limitPolicy "second" 10)) (some (limitPolicy "first" 5)) []
  refine ⟨_, _, rfl, rfl, ?_⟩
  apply ((policyOrder_iff (parsed_limitPolicies 5 10) hperm rootSpace).2 _ _ rfl rfl [] []
    (List.Perm.refl _) (List.Perm.refl _) rootSpace (readRequest "a")).mpr
  apply limitsAgree_of_nonneg hperm
  intro pattern rule hrule
  obtain ⟨entry, hentry, rfl⟩ := List.mem_map.mp hrule
  have hmem : entry ∈ ruleEntries
      [some (limitPolicy "first" 5), some (limitPolicy "second" 10)] :=
    List.mem_of_mem_filter hentry
  obtain rfl | rfl : entry = _ ∨ entry = _ := by
    simpa [ruleEntries, entriesOf, limitPolicy] using hmem
  · decide
  · decide

theorem sample_read_authorized :
    Authorizes plainLibrary [some (limitPolicy "first" (-1)), some (limitPolicy "second" 10)]
      rootSpace (readRequest "a") := by
  have hacl : newACL plainLibrary rootSpace
      [some (limitPolicy "first" (-1)), some (limitPolicy "second" 10)] = .ok _ := rfl
  exact (allowed_iff_authorizes (parsed_limitPolicies (-1) 10) hacl (by decide) (List.Perm.refl _)
    rootSpace (readRequest "a") (by decide)).mp rfl

end VaultProofs.PolicyOrder
