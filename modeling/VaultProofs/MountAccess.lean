import VaultProofs.AclGrants
import VaultProofs.AclPrecedence

/-!
Which mounts the holder of a token gets to see.
-/

namespace VaultProofs.MountAccess

open GoStrings TableFolds AclPolicies AclRules AclLookup AclOperations AclPrecedence AclGrants

def grantable : List (GoString × UInt32) :=
  [(ofString "sudo", sudoCapabilityInt), (ofString "read", readCapabilityInt),
   (ofString "list", listCapabilityInt), (ofString "update", updateCapabilityInt),
   (ofString "delete", deleteCapabilityInt), (ofString "create", createCapabilityInt),
   (ofString "patch", patchCapabilityInt), (ofString "subscribe", subscribeCapabilityInt),
   (ofString "recover", recoverCapabilityInt)]

def capabilitiesAndSubscribeEventTypes (lib : Library) (acl : ACL) (order : List GoString)
    (space : Namespace) (path : GoString) : List GoString × List GoString :=
  let res := allowOperation lib acl order space { operation := .list, path := path } true
  if res.isRoot then ([ofString "root"], [ofString "*"])
  else
    let bitmap := res.capabilitiesBitmap
    let pathCapabilities := (grantable.filter (hasCapability bitmap ·.2)).map Prod.fst
    (if hasCapability bitmap denyCapabilityInt || pathCapabilities.isEmpty then
      [ofString "deny"]
    else pathCapabilities, res.subscribeEventTypes)

def capabilities (lib : Library) (acl : ACL) (order : List GoString) (space : Namespace)
    (path : GoString) : List GoString :=
  (capabilitiesAndSubscribeEventTypes lib acl order space path).1

def trimmedPath (space : Namespace) (path : GoString) : GoString :=
  trimPrefix path space.path

def givesCapability (perms : ACLPermissions) : Bool :=
  !perms.denies && grantable.any (hasCapability perms.capabilitiesBitmap ·.2)

-- A walk ends at the first rule that passes the test.
def walkPrefix (rules : RuleMap) (path : GoString) (walkFn : ACLPermissions → Bool) : Bool :=
  rules.entries.any fun entry => hasPrefix entry.1 path && walkFn entry.2

def hasMountAccess (lib : Library) (acl : ACL) (order : List GoString) (space : Namespace)
    (path : GoString) : Bool :=
  if !(capabilities lib acl order space (trimmedPath space path)).contains (ofString "deny") then
    true
  else
    let aclCapabilitiesGiven :=
      walkPrefix acl.exactRules path givesCapability ||
        walkPrefix acl.prefixRules path givesCapability
    aclCapabilitiesGiven || (checkAllowedFromNonExactPaths acl order path true).isSome

/-! What the rules of one pattern give -/

def Opened (policies : List (Option Policy)) (pattern : Pattern) : Prop :=
  (∀ rule ∈ rulesFor policies pattern, rule.denies = false) ∧
    ∃ rule ∈ rulesFor policies pattern, givesCapability rule = true

/-- A rule gives a capability on the path or on some path that starts with it. -/
def Granted (policies : List (Option Policy)) (path : GoString) : Prop :=
  ∃ entry ∈ ruleEntries policies, givesCapability entry.2.permissions = true ∧
    ∃ rest, Matches entry.2.pattern (path ++ rest)

theorem joinAll_summary (rules : List ACLPermissions) :
    (joinAll (rules.map summary) = ⊤ ↔ ∃ rule ∈ rules, rule.denies = true) ∧
      ∀ g : Grant, joinAll (rules.map summary) = g → ∀ capability,
        (hasCapability g.capabilities capability = true ↔
          ∃ rule ∈ rules, hasCapability rule.capabilitiesBitmap capability = true) := by
  induction rules with
  | nil =>
    refine ⟨iff_of_false WithTop.coe_ne_top (by simp), ?_⟩
    intro g hg capability
    obtain rfl : ⊥ = g := WithTop.coe_inj.mp hg
    simp [hasCapability, show (⊥ : Grant).capabilities = 0 from rfl]
  | cons rule rules ih =>
    have hcons : joinAll ((rule :: rules).map summary) =
        summary rule ⊔ joinAll (rules.map summary) := rfl
    rw [hcons, List.exists_mem_cons_iff]
    by_cases hdenies : rule.denies = true
    · simp [summary, hdenies]
    rw [summary, if_neg hdenies]
    cases hrest : joinAll (rules.map summary) with
    | top => simp [← ih.1, hrest]
    | coe h =>
      rw [← WithTop.coe_sup]
      have hnone := ih.1
      rw [hrest] at hnone
      refine ⟨iff_of_false WithTop.coe_ne_top fun hex => ?_, ?_⟩
      · exact WithTop.coe_ne_top (hnone.mpr (hex.resolve_left hdenies))
      intro g hg capability
      rw [← WithTop.coe_inj.mp hg, List.exists_mem_cons_iff, ← ih.2 h hrest capability,
        ← Bool.or_eq_true, ← hasCapability_or]
      rfl

variable {lib : Library} {policies : List (Option Policy)} {pattern : Pattern}
  {p : ACLPermissions}

theorem merged_spec (h : mergedPermissions lib (ruleEntries policies) pattern = some p) :
    (p.denies = true ↔ ∃ rule ∈ rulesFor policies pattern, rule.denies = true) ∧
      (p.denies = false → ∀ capability, hasCapability p.capabilitiesBitmap capability = true ↔
        ∃ rule ∈ rulesFor policies pattern,
          hasCapability rule.capabilitiesBitmap capability = true) := by
  obtain ⟨hdenies, hcapabilities⟩ := joinAll_summary (rulesFor policies pattern)
  rw [← summary_mergedPermissions h] at hdenies hcapabilities
  constructor
  · rw [← hdenies, summary]
    split <;> simp_all
  · intro hp
    exact hcapabilities (grantOf p) (by simp [summary, hp])

theorem givesCapability_merged (h : mergedPermissions lib (ruleEntries policies) pattern = some p) :
    givesCapability p = true ↔ Opened policies pattern := by
  obtain ⟨hdenies, hcapabilities⟩ := merged_spec h
  have hnone : p.denies = false ↔ ∀ rule ∈ rulesFor policies pattern, rule.denies = false := by
    rw [← Bool.not_eq_true, hdenies]
    simp
  simp only [givesCapability, Opened, Bool.and_eq_true, Bool.not_eq_true', List.any_eq_true]
  constructor
  · rintro ⟨hp, capability, hmem, hhas⟩
    obtain ⟨rule, hrule, hhas⟩ := (hcapabilities hp _).mp hhas
    exact ⟨hnone.mp hp, rule, hrule, hnone.mp hp rule hrule, capability, hmem, hhas⟩
  · rintro ⟨hall, rule, hrule, _, capability, hmem, hhas⟩
    exact ⟨hnone.mpr hall, capability, hmem,
      (hcapabilities (hnone.mpr hall) _).mpr ⟨rule, hrule, hhas⟩⟩

theorem grantable_of_lookup {name : GoString} {capability : UInt32}
    (h : cap2Int.lookup name = some capability) (hdeny : name ≠ ofString "deny") :
    ∃ entry ∈ grantable, hasCapability capability entry.2 = true := by
  obtain ⟨before, after, hsplit, _⟩ := List.lookup_eq_some_iff.mp h
  have hmem : (name, capability) ∈ cap2Int.tail := by
    have hin : (name, capability) ∈ cap2Int := by
      rw [hsplit]
      simp
    rcases List.mem_cons.mp hin with heq | htail
    · exact (hdeny (congrArg Prod.fst heq)).elim
    · exact htail
  have hall : ∀ entry ∈ cap2Int.tail,
      grantable.any (hasCapability entry.2 ·.2) = true := by
    decide
  exact List.any_eq_true.mp (hall _ hmem)

theorem capability_of_bitmap {key : GoString} {names : List GoString} {start bitmap : UInt32}
    (h : capabilitiesBitmap lib key names start = .ok bitmap)
    (hdeny : hasCapability bitmap denyCapabilityInt = false)
    (hstart : 0 < start → ∃ entry ∈ grantable, hasCapability start entry.2 = true)
    (hpos : 0 < bitmap) : ∃ entry ∈ grantable, hasCapability bitmap entry.2 = true := by
  induction names generalizing start with
  | nil =>
    cases h
    exact hstart hpos
  | cons name names ih =>
    unfold capabilitiesBitmap at h
    split at h
    · cases h
      cases hdeny
    rename_i hname
    split at h
    · rename_i capability hlookup
      obtain ⟨entry, hentry, hhas⟩ := grantable_of_lookup hlookup hname
      exact ih h fun _ => ⟨entry, hentry, by rw [hasCapability_or, hhas, Bool.or_true]⟩
    · cases h

theorem givesCapability_of_parsed (hparsed : ParsedPolicies lib policies) {entry : Entry}
    (hentry : entry ∈ ruleEntries policies) (hdeny : entry.2.permissions.denies = false)
    (hpos : 0 < entry.2.permissions.capabilitiesBitmap) :
    givesCapability entry.2.permissions = true := by
  obtain ⟨block, hblock⟩ := hparsed.block hentry
  have hgives : ∃ capability ∈ grantable,
      hasCapability entry.2.permissions.capabilitiesBitmap capability.2 = true := by
    rcases (parsePath_eq_ok hblock).2 with heq | ⟨names, bitmap, hbitmap, hplain, hpermissions⟩
    · rw [heq] at hdeny
      cases hdeny
    · obtain ⟨hsame, _⟩ := parsePermissions_eq_ok hpermissions
      rw [hsame] at hpos ⊢
      exact capability_of_bitmap hbitmap hplain (fun h => absurd h (by decide)) hpos
  rw [givesCapability, hdeny, Bool.not_false, Bool.true_and]
  exact List.any_eq_true.mpr hgives

theorem bitmap_merged (hparsed : ParsedPolicies lib policies)
    (h : mergedPermissions lib (ruleEntries policies) pattern = some p) :
    (p.denies = false ∧ 0 < p.capabilitiesBitmap) ↔ Opened policies pattern := by
  rw [← givesCapability_merged h]
  have hall : ∀ bitmap : UInt32, 0 < bitmap ↔ hasCapability bitmap 0xFFFFFFFF = true := by
    intro bitmap
    have hmask : bitmap &&& 0xFFFFFFFF = bitmap := UInt32.and_neg_one
    rw [hasCapability, hmask, decide_eq_true_iff]
  constructor
  · rintro ⟨hp, hpos⟩
    obtain ⟨hdenies, hcapabilities⟩ := merged_spec h
    obtain ⟨rule, hrule, hhas⟩ := (hcapabilities hp _).mp ((hall _).mp hpos)
    have hplain : rule.denies = false := by
      by_contra hne
      rw [hdenies.mpr ⟨rule, hrule, Bool.eq_true_of_not_eq_false hne⟩] at hp
      cases hp
    obtain ⟨entry, hentry, rfl⟩ := List.mem_map.mp hrule
    have hgives := givesCapability_of_parsed hparsed (List.mem_of_mem_filter hentry) hplain
      ((hall _).mpr hhas)
    rw [givesCapability, Bool.and_eq_true, List.any_eq_true] at hgives ⊢
    obtain ⟨_, capability, hmem, hbit⟩ := hgives
    exact ⟨by rw [hp]; rfl, capability, hmem, (hcapabilities hp _).mpr ⟨_, hrule, hbit⟩⟩
  · intro hgives
    rw [givesCapability, Bool.and_eq_true, List.any_eq_true, Bool.not_eq_true'] at hgives
    obtain ⟨hp, capability, _, hhas⟩ := hgives
    refine ⟨hp, ?_⟩
    rw [UInt32.pos_iff_ne_zero]
    intro hzero
    rw [hzero, hasCapability, UInt32.zero_and] at hhas
    cases hhas

theorem Opened.entry (h : Opened policies pattern) :
    ∃ entry ∈ ruleEntries policies, entry.2.pattern = pattern ∧
      givesCapability entry.2.permissions = true := by
  obtain ⟨_, rule, hrule, hgives⟩ := h
  obtain ⟨entry, hentry, rfl⟩ := List.mem_map.mp hrule
  obtain ⟨hmem, hpattern⟩ := List.mem_filter.mp hentry
  exact ⟨entry, hmem, of_decide_eq_true hpattern, hgives⟩

theorem Opened.granted (h : Opened policies pattern) {path rest : GoString}
    (hmatches : Matches pattern (path ++ rest)) : Granted policies path := by
  obtain ⟨entry, hmem, rfl, hgives⟩ := h.entry
  exact ⟨entry, hmem, hgives, rest, hmatches⟩

theorem Opened.mem (h : Opened policies pattern) : pattern ∈ patternsOf (ruleEntries policies) := by
  obtain ⟨entry, hmem, rfl, _⟩ := h.entry
  exact List.mem_map_of_mem hmem

/-! Comparing a pattern with a mount path -/

variable {isPrefix : Bool} {aclParts parts : List GoString}

theorem compareSegments_of_covers (h : Covers false aclParts parts) (hne : parts ≠ [])
    (last : GoString) (wildcards : Nat) (collected : List GoString) :
    compareSegments true isPrefix aclParts (parts ++ [last]) wildcards collected =
      .atMount (collected ++ parts) := by
  generalize hb : false = plain at h
  induction h generalizing wildcards collected with
  | done _ => exact (hne rfl).elim
  | glob h _ => exact absurd (hb.trans h) Bool.false_ne_true
  | @segment _ _ _ parts h rest ih =>
    rw [List.cons_append, compareSegments_agree h]
    cases parts with
    | nil => rfl
    | cons next parts =>
      rw [if_neg (by simp), ih (List.cons_ne_nil _ _), List.append_assoc]
      rfl

/-- One step of the comparison with a mount path. A segment that disagrees is passed over. -/
theorem compareSegments_step (isPrefix : Bool) (aclPart part : GoString)
    (aclParts parts : List GoString) (wildcards : Nat) (collected : List GoString) :
    ∃ more wildcards',
      ((aclPart = ofString "+" ∨ aclPart = part) ∧ more = [part] ∨
        isPrefix = true ∧ aclParts = [] ∧ aclPart <+: part ∧ part ≠ [] ∧
          more = part :: (parts ++ [[]]) ∨
        more = []) ∧
      compareSegments true isPrefix (aclPart :: aclParts) (part :: (parts ++ [[]])) wildcards
          collected =
        if parts = [] then .atMount (collected ++ more)
        else compareSegments true isPrefix aclParts (parts ++ [[]]) wildcards'
          (collected ++ more) := by
  by_cases hagree : aclPart = ofString "+" ∨ aclPart = part
  · refine ⟨[part], wildcards + [aclPart].count (ofString "+"), .inl ⟨hagree, rfl⟩, ?_⟩
    simp [compareSegments_agree hagree]
  obtain ⟨hplus, heq⟩ := not_or.mp hagree
  by_cases hstart : (isPrefix && aclParts.isEmpty && hasPrefix part aclPart) = true
  · refine ⟨part :: (parts ++ [[]]), wildcards, .inr (.inl ?_), ?_⟩
    · simp only [Bool.and_eq_true, List.isEmpty_iff] at hstart
      obtain ⟨⟨hb, hnil⟩, hstarts⟩ := hstart
      have hbegins : aclPart <+: part := hasPrefix_iff.mp hstarts
      refine ⟨hb, hnil, hbegins, ?_, rfl⟩
      rintro rfl
      exact heq (List.prefix_nil.mp hbegins)
    · simp [compareSegments, hplus, heq, hstart]
  · exact ⟨[], wildcards, .inr (.inr rfl), by simp [compareSegments, hplus, heq, hstart]⟩

/-- What has been collected where the mount path ends: the segments that agreed, and one more if the
last was only started by the pattern. -/
theorem compareSegments_atMount {wildcards : Nat} {collected found : List GoString}
    (hne : parts ≠ [])
    (h : compareSegments true isPrefix aclParts (parts ++ [[]]) wildcards collected =
      .atMount found) :
    ∃ agreed, agreed.Sublist parts ∧
      (agreed = parts → (∃ start, start <+: aclParts ∧ Covers false start parts) ∨
        isPrefix = true ∧ Covers true aclParts parts) ∧
      (found = collected ++ agreed ∨
        found = collected ++ agreed ++ [[]] ∧ parts.getLast? ≠ some []) := by
  induction aclParts generalizing parts wildcards collected with
  | nil => cases h
  | cons aclPart aclParts ih =>
    obtain ⟨part, parts, rfl⟩ := List.exists_cons_of_ne_nil hne
    obtain ⟨more, wildcards', hmore, hstep⟩ :=
      compareSegments_step isPrefix aclPart part aclParts parts wildcards collected
    rw [List.cons_append, hstep] at h
    by_cases hlast : parts = []
    · -- The path is used up.
      subst hlast
      cases h
      rcases hmore with ⟨hagree, rfl⟩ | ⟨hb, rfl, hstart, hpart, rfl⟩ | rfl
      · refine ⟨[part], List.Sublist.refl _, fun _ => .inl ⟨[aclPart], ?_, ?_⟩, .inl rfl⟩
        · exact ⟨aclParts, rfl⟩
        · exact .segment hagree (.done rfl)
      · refine ⟨[part], List.Sublist.refl _, fun _ => .inr ⟨hb, .glob rfl hstart⟩, .inr ?_⟩
        exact ⟨by simp, by simpa using hpart⟩
      · refine ⟨[], List.nil_sublist _, ?_, .inl rfl⟩
        intro hnil
        cases hnil
    rw [if_neg hlast] at h
    have hlater : (part :: parts).getLast? = parts.getLast? := by
      obtain ⟨next, parts, rfl⟩ := List.exists_cons_of_ne_nil hlast
      exact List.getLast?_cons_cons
    rw [hlater]
    rcases hmore with ⟨hagree, rfl⟩ | ⟨_, rfl, _⟩ | rfl
    · obtain ⟨agreed, hsub, hall, hfound⟩ := ih hlast h
      refine ⟨part :: agreed, hsub.cons_cons part, ?_, by simpa using hfound⟩
      intro hsame
      rcases hall (List.cons.inj hsame).2 with ⟨start, hstart, hcovers⟩ | ⟨hb, hcovers⟩
      · exact .inl ⟨aclPart :: start, List.prefix_cons_inj aclPart |>.mpr hstart,
          .segment hagree hcovers⟩
      · exact .inr ⟨hb, .segment hagree hcovers⟩
    · cases h
    obtain ⟨agreed, hsub, _, hfound⟩ := ih hlast h
    refine ⟨agreed, hsub.cons part, ?_, by simpa using hfound⟩
    rintro rfl
    exact absurd hsub.length_le (by simp)

theorem splitByte_prefix_of_joined {path : GoString} {found : List GoString}
    (hpath : path ≠ []) (hfound : ∀ part ∈ found, 0x2f ∉ part)
    (h : path ++ [0x2f] <+: joinByte 0x2f found ++ [0x2f]) : splitByte 0x2f path <+: found := by
  obtain ⟨tail, htail⟩ := h
  rw [List.append_assoc, List.singleton_append] at htail
  have hne : found ≠ [] := by
    rintro rfl
    have hlength := congrArg List.length htail
    rw [joinByte, List.intercalate_nil, List.length_append] at hlength
    have := List.length_pos_of_ne_nil hpath
    simp at hlength
    omega
  have hsplit := congrArg (splitByte 0x2f) htail
  rw [splitByte_append, splitByte_append, splitByte_joinByte hne hfound] at hsplit
  have hlength := congrArg List.length hsplit
  have htailpos := List.length_pos_of_ne_nil (splitByte_ne_nil 0x2f tail)
  simp only [List.length_append, splitByte, List.length_singleton] at hlength
  exact List.prefix_of_prefix_length_le ⟨_, hsplit⟩ ⟨_, rfl⟩ (by omega)

variable {acl : ACL} {order : List GoString} {path key : GoString}

def MountPath (space : Namespace) (path : GoString) : Prop :=
  space.path <+: path ∧ hasSuffix path (ofString "/") = true ∧ ¬ ofString "/" <+: path

variable {space : Namespace}

theorem aclPath_trimmedPath (h : MountPath space path) :
    aclPath space (trimmedPath space path) = path := by
  obtain ⟨⟨rest, rfl⟩, _, hslash⟩ := h
  have hstart : hasPrefix (space.path ++ rest) space.path = true :=
    hasPrefix_iff.mpr ⟨rest, rfl⟩
  rw [aclPath, trimmedPath, trimPrefix, if_pos hstart, List.drop_left]
  generalize space.path ++ rest = path at hslash ⊢
  cases path with
  | nil => rfl
  | cons byte path =>
    have hbyte : byte ≠ 0x2f := by
      rintro rfl
      exact hslash ⟨path, rfl⟩
    exact List.dropWhile_cons_of_neg (by simpa using hbyte)

theorem MountPath.split (h : MountPath space path) :
    path = trimSuffix path (ofString "/") ++ [0x2f] ∧
      splitByte 0x2f path = splitByte 0x2f (trimSuffix path (ofString "/")) ++ [[]] ∧
      trimSuffix path (ofString "/") ≠ [] := by
  have hpath : path = trimSuffix path (ofString "/") ++ [0x2f] := (trimSuffix_append h.2.1).symm
  refine ⟨hpath, ?_, ?_⟩
  · have hsplit := splitByte_append 0x2f (trimSuffix path (ofString "/")) []
    rw [← hpath] at hsplit
    exact hsplit
  · intro hnil
    rw [hnil] at hpath
    exact h.2.2 ⟨[], hpath.symm⟩

/-- The comparison gets to the end of the mount path with every segment agreeing. -/
def Reaches (path key : GoString) : Prop :=
  ∃ found, compareSegments true (hasSuffix key (ofString "*")) (splitByte 0x2f (currWCPath key))
      (splitByte 0x2f path) 0 [] = .atMount found ∧
    hasPrefix (joinByte 0x2f found ++ [0x2f]) path = true

theorem matches_of_reaches (hpath : MountPath space path) (hform : WellFormed ⟨.segment, key⟩)
    (h : Reaches path key) :
    (∃ rest, Matches ⟨.segment, key⟩ (path ++ rest)) ∨
      Matches ⟨.segment, key⟩ (trimSuffix path (ofString "/")) := by
  obtain ⟨found, hcompare, hstarts⟩ := h
  obtain ⟨hslash, hsplit, hbare⟩ := hpath.split
  set bare := trimSuffix path (ofString "/")
  have hfree : ∀ part ∈ splitByte 0x2f bare, 0x2f ∉ part := fun _ => not_mem_of_mem_splitByte
  rw [hsplit] at hcompare
  obtain ⟨agreed, hsub, hall, hfound⟩ :=
    compareSegments_atMount (splitByte_ne_nil 0x2f bare) hcompare
  have hbegins : bare ++ [0x2f] <+: joinByte 0x2f found ++ [0x2f] := by
    rw [← hslash]
    exact hasPrefix_iff.mp hstarts
  have hagreed : agreed = splitByte 0x2f bare := by
    rcases hfound with rfl | ⟨rfl, hlast⟩
    · have hle := splitByte_prefix_of_joined hbare (fun part hmem => hfree part (hsub.subset hmem))
        hbegins
      exact hsub.eq_of_length_le hle.length_le
    have hle : splitByte 0x2f bare <+: agreed ++ [[]] := by
      apply splitByte_prefix_of_joined hbare _ hbegins
      intro part hmem
      rcases List.mem_append.mp hmem with hmem | hmem
      · exact hfree part (hsub.subset hmem)
      · rw [List.mem_singleton.mp hmem]
        exact List.not_mem_nil
    rcases hle.length_le.lt_or_eq with hlt | heq
    · rw [List.length_append, List.length_singleton] at hlt
      exact hsub.eq_of_length_le (Nat.le_of_lt_succ hlt)
    · -- One segment was passed over, and the path would end in an empty segment.
      rw [hle.eq_of_length heq] at hlast
      exact (hlast (by simp)).elim
  have hlonger : ∀ more, Covers (hasSuffix key (ofString "*"))
      (splitByte 0x2f (currWCPath key)) (splitByte 0x2f bare ++ splitByte 0x2f more) →
        ∃ rest, Matches ⟨.segment, key⟩ (path ++ rest) := by
    intro more hcovers
    refine ⟨more, ?_⟩
    rw [← splitByte_append, ← List.singleton_append, ← List.append_assoc, ← hslash] at hcovers
    exact hcovers
  rcases hall hagreed with ⟨start, ⟨more, hmore⟩, hcovers⟩ | ⟨hglob, hcovers⟩
  · by_cases hnil : more = []
    · rw [hnil, List.append_nil] at hmore
      rw [hmore] at hcovers
      by_cases hglob : hasSuffix key (ofString "*") = true
      · have hparts := (List.dropLast_append_getLast
          (splitByte_ne_nil 0x2f (currWCPath key))).symm
        have hplus := last_segment_ne_plus rfl hform hglob hparts
        rw [hparts] at hcovers
        refine .inl (hlonger [] ?_)
        rw [hglob, hparts]
        exact (hcovers.glob_of_last hplus).append_right _
      rw [Bool.not_eq_true] at hglob
      refine .inr ?_
      show Covers (hasSuffix key (ofString "*")) (splitByte 0x2f (currWCPath key)) _
      rw [hglob]
      exact hcovers
    refine .inl (hlonger (joinByte 0x2f more) ?_)
    have hmorefree : ∀ part ∈ more, 0x2f ∉ part := by
      intro part hmem
      apply not_mem_of_mem_splitByte (s := currWCPath key)
      rw [← hmore]
      exact List.mem_append_right _ hmem
    rw [splitByte_joinByte hnil hmorefree, ← hmore]
    exact hcovers.append (Covers.refl_of_ne_nil fun _ => hnil)
  · refine .inl (hlonger [] ?_)
    rw [hglob]
    exact hcovers.append_right _

theorem reaches_of_matches (hpath : MountPath space path)
    (hglob : hasSuffix key (ofString "*") = false)
    (h : Matches ⟨.segment, key⟩ (trimSuffix path (ofString "/"))) : Reaches path key := by
  obtain ⟨hslash, hsplit, _⟩ := hpath.split
  have hcovers : Covers (hasSuffix key (ofString "*")) (splitByte 0x2f (currWCPath key))
    (splitByte 0x2f (trimSuffix path (ofString "/"))) := h
  rw [hglob] at hcovers
  refine ⟨splitByte 0x2f (trimSuffix path (ofString "/")), ?_, ?_⟩
  · rw [hsplit, compareSegments_of_covers hcovers (splitByte_ne_nil _ _), List.nil_append]
  · rw [joinByte_splitByte, ← hslash]
    exact hasPrefix_iff.mpr List.prefix_rfl

def OpensMount (acl : ACL) (path key : GoString) : Prop :=
  Reaches path key ∧ ∃ permissions ∈ acl.segmentWildcardPaths.lookup key,
    permissions.denies = false ∧ 0 < permissions.capabilitiesBitmap

theorem visitPattern_bareMount (hkey : key ≠ []) (descrs : List WcPathDescr) :
    (OpensMount acl path key ∧
        visitPattern acl path true descrs key = .error ⟨.segment, key⟩) ∨
      (¬ OpensMount acl path key ∧
        ∃ descrs', visitPattern acl path true descrs key = .ok descrs') := by
  simp only [visitPattern, if_neg hkey, Bool.not_true, Bool.false_and, Bool.false_eq_true, if_false]
  cases hcompare : compareSegments true (hasSuffix key (ofString "*"))
      (splitByte 0x2f (currWCPath key)) (splitByte 0x2f path) 0 [] with
  | mismatch | matched wildcards =>
    refine .inr ⟨?_, _, rfl⟩
    rintro ⟨⟨found, hfound, _⟩, _⟩
    rw [hcompare] at hfound
    cases hfound
  | atMount found =>
    cases hlookup : acl.segmentWildcardPaths.lookup key with
    | none =>
      refine .inr ⟨?_, descrs, rfl⟩
      rintro ⟨_, permissions, hmem, _⟩
      rw [hlookup] at hmem
      cases hmem
    | some permissions =>
      by_cases hopens : hasPrefix (joinByte 0x2f found ++ [0x2f]) path = true ∧
          permissions.denies = false ∧ 0 < permissions.capabilitiesBitmap
      · refine .inl ⟨⟨⟨found, hcompare, hopens.1⟩, permissions, hlookup, hopens.2⟩, ?_⟩
        simp [hopens]
      refine .inr ⟨?_, descrs, ?_⟩
      · rintro ⟨⟨found', hfound, hstarts⟩, permissions', hmem, hperm⟩
        rw [hcompare] at hfound
        rw [hlookup] at hmem
        cases hfound
        cases hmem
        exact hopens ⟨hstarts, hperm⟩
      · apply if_neg
        simpa [and_assoc] using hopens

theorem foldlM_bareMount (acl : ACL) (path : GoString) {order : List GoString}
    (hkeys : ∀ key ∈ order, key ≠ []) (descrs : List WcPathDescr) :
    ((∃ key ∈ order, OpensMount acl path key) ∧
        ∃ pattern, order.foldlM (visitPattern acl path true) descrs = .error pattern) ∨
      ((∀ key ∈ order, ¬ OpensMount acl path key) ∧
        ∃ descrs', order.foldlM (visitPattern acl path true) descrs = .ok descrs') := by
  induction order generalizing descrs with
  | nil => exact .inr ⟨by simp, descrs, rfl⟩
  | cons key order ih =>
    rcases visitPattern_bareMount (hkeys key (.head _)) descrs with
      ⟨hopens, hvisit⟩ | ⟨hopens, descrs', hvisit⟩
    · refine .inl ⟨⟨key, (.head _), hopens⟩, ⟨.segment, key⟩, ?_⟩
      rw [List.foldlM_cons, hvisit]
      rfl
    rw [List.foldlM_cons, hvisit]
    rcases ih (fun key' hmem => hkeys key' (.tail _ hmem)) descrs' with
      ⟨⟨key', hmem, hopens'⟩, hfold⟩ | ⟨hnone, hfold⟩
    · exact .inl ⟨⟨key', .tail _ hmem, hopens'⟩, hfold⟩
    · exact .inr ⟨List.forall_mem_cons.mpr ⟨hopens, hnone⟩, hfold⟩

/-- Without segment wildcards any prefix rule for the path is returned, and otherwise a
pattern that opens the mount. -/
theorem isSome_checkBareMount (hkeys : ∀ key ∈ order, key ≠ [])
    (horder : order.Perm acl.segmentWildcardPaths.keys) :
    (checkAllowedFromNonExactPaths acl order path true).isSome = true ↔
      (order = [] ∧ (longestPrefix acl path).isSome = true) ∨
        ∃ key ∈ order, OpensMount acl path key := by
  have hempty : acl.segmentWildcardPaths.entries.isEmpty = true ↔ order = [] := by
    rw [List.isEmpty_iff]
    constructor
    · intro h
      rw [AList.keys, h] at horder
      exact List.perm_nil.mp horder
    · rintro rfl
      exact List.map_eq_nil_iff.mp (List.nil_perm.mp horder)
  simp only [checkAllowedFromNonExactPaths]
  split
  · rename_i hnone
    rw [hempty] at hnone
    simp [hnone]
  rename_i hsome
  rw [hempty] at hsome
  rcases foldlM_bareMount acl path hkeys
      ((longestPrefix acl path).map prefixDescr).toList with
    ⟨hopens, pattern, hfold⟩ | ⟨hnone, descrs, hfold⟩
  · rw [hfold]
    simpa using .inr hopens
  · rw [hfold]
    simpa [hsome] using hnone

/-! Mounts shown -/

theorem contains_deny_capabilities (hroot : acl.root = false) (caller : Namespace)
    (path : GoString) :
    (capabilities lib acl order caller path).contains (ofString "deny") = false ↔
      ∃ p ∈ (findPattern acl order .list (aclPath caller path)).bind acl.lookup,
        givesCapability p = true := by
  have hnames : ∀ bitmap, ((grantable.filter (hasCapability bitmap ·.2)).map Prod.fst).contains
      (ofString "deny") = false := by
    intro bitmap
    have hother : ∀ entry ∈ grantable, entry.1 ≠ ofString "deny" := by decide
    rw [List.contains_eq_mem, decide_eq_false_iff_not, List.mem_map]
    rintro ⟨entry, hentry, hname⟩
    exact hother entry (List.mem_of_mem_filter hentry) hname
  have hempty : ∀ bitmap, ((grantable.filter (hasCapability bitmap ·.2)).map Prod.fst).isEmpty =
      !grantable.any (hasCapability bitmap ·.2) := by
    intro bitmap
    rw [List.isEmpty_map, Bool.eq_iff_iff, List.isEmpty_iff, List.filter_eq_nil_iff]
    simp
  rw [capabilities, capabilitiesAndSubscribeEventTypes,
    allowOperation_eq _ _ _ (Bool.eq_false_iff.mp hroot) (by simp)]
  cases (findPattern acl order .list (aclPath caller path)).bind acl.lookup with
  | none => simp [checkFound, hasCapability]
  | some p =>
    have hcondition : (hasCapability p.capabilitiesBitmap denyCapabilityInt ||
        !grantable.any (hasCapability p.capabilitiesBitmap ·.2)) = !givesCapability p := by
      rw [givesCapability, Bool.not_and, Bool.not_not]
      rfl
    simp only [checkFound, checkPermissions, hempty, if_true, hcondition]
    cases hgives : givesCapability p with
    | true => simpa [hgives] using hnames p.capabilitiesBitmap
    | false => simp [hgives]

/-- What makes a mount visible whatever else is granted: without segment wildcards a prefix rule
that reaches the mount path, or a rule for the path without its slash. -/
def ShownAnyway (policies : List (Option Policy)) (path : GoString) : Prop :=
  let patterns := patternsOf (ruleEntries policies)
  let bare := trimSuffix path (ofString "/")
  ((∀ pattern ∈ patterns, pattern.kind ≠ .segment) ∧
      ∃ start, ⟨.glob, start⟩ ∈ patterns ∧ start <+: path) ∨
    (⟨.exact, path⟩ ∉ patterns ∧ Opened policies ⟨.exact, bare⟩) ∨
    ∃ key, Opened policies ⟨.segment, key⟩ ∧ Matches ⟨.segment, key⟩ bare

theorem exists_lookup_iff (hacl : newACL lib space policies = .ok acl) (pattern : Pattern)
    {test : ACLPermissions → Prop}
    (htest : ∀ p, mergedPermissions lib (ruleEntries policies) pattern = some p →
      (test p ↔ Opened policies pattern)) :
    (∃ p ∈ acl.lookup pattern, test p) ↔ Opened policies pattern := by
  simp only [lookup_newACL hacl, Option.mem_def]
  constructor
  · rintro ⟨p, hp, htested⟩
    exact (htest p hp).mp htested
  intro hopened
  obtain ⟨p, hp⟩ :=
    Option.isSome_iff_exists.mp ((isSome_mergedPermissions lib _ _).mpr hopened.mem)
  exact ⟨p, hp, (htest p hp).mpr hopened⟩

theorem walkPrefix_iff (hacl : newACL lib space policies = .ok acl) (kind : PathKind)
    (path : GoString) :
    walkPrefix (acl.rules kind) path givesCapability = true ↔
      ∃ rest, Opened policies ⟨kind, path ++ rest⟩ := by
  simp only [walkPrefix, List.any_eq_true, Bool.and_eq_true]
  have hfound := fun rest =>
    exists_lookup_iff hacl ⟨kind, path ++ rest⟩ fun _ => givesCapability_merged
  constructor
  · rintro ⟨⟨key, p⟩, hmem, hstarts, hgives⟩
    obtain ⟨rest, rfl⟩ := hasPrefix_iff.mp hstarts
    exact ⟨rest, (hfound rest).mp ⟨p, AList.mem_lookup_iff.mpr hmem, hgives⟩⟩
  rintro ⟨rest, hopened⟩
  obtain ⟨p, hp, hgives⟩ := (hfound rest).mpr hopened
  exact ⟨⟨path ++ rest, p⟩, AList.mem_lookup_iff.mp hp, hasPrefix_iff.mpr ⟨rest, rfl⟩, hgives⟩

theorem opensMount_iff (hparsed : ParsedPolicies lib policies)
    (hacl : newACL lib space policies = .ok acl) {key : GoString} :
    OpensMount acl path key ↔ Reaches path key ∧ Opened policies ⟨.segment, key⟩ :=
  and_congr_right fun _ =>
    exists_lookup_iff hacl ⟨.segment, key⟩ fun _ => bitmap_merged hparsed

theorem hasMountAccess_iff (hparsed : ParsedPolicies lib policies)
    (hacl : newACL lib space policies = .ok acl) (hroot : acl.root = false)
    (horder : order.Perm acl.segmentWildcardPaths.keys) {caller : Namespace}
    (hpath : MountPath caller path) :
    hasMountAccess lib acl order caller path = true ↔
      (∃ pattern, Deciding (patternsOf (ruleEntries policies)) .list path (some pattern) ∧
          Opened policies pattern) ∨
        (∃ rest, Opened policies ⟨.exact, path ++ rest⟩) ∨
        (∃ rest, Opened policies ⟨.glob, path ++ rest⟩) ∨
        ((∀ pattern ∈ patternsOf (ruleEntries policies), pattern.kind ≠ .segment) ∧
          ∃ start, ⟨.glob, start⟩ ∈ patternsOf (ruleEntries policies) ∧ start <+: path) ∨
        ∃ key, Reaches path key ∧ Opened policies ⟨.segment, key⟩ := by
  set patterns := patternsOf (ruleEntries policies)
  have hform := wellFormed_of_parsed hparsed
  have hstored := mem_patternsOf_iff hacl
  have hkeys := mem_order_iff hstored horder
  have hkeysNe : ∀ key ∈ order, key ≠ [] := by
    rintro key hkey rfl
    cases (hform _ ((hkeys []).mp hkey)).1
  have hcapabilities : (capabilities lib acl order caller (trimmedPath caller path)).contains
      (ofString "deny") = false ↔
        ∃ pattern, Deciding patterns .list path (some pattern) ∧ Opened policies pattern := by
    rw [contains_deny_capabilities hroot, aclPath_trimmedPath hpath]
    have hdeciding := deciding_newACL hparsed hacl horder .list path
    constructor
    · rintro ⟨p, hp, hgives⟩
      obtain ⟨pattern, hpattern, hlookup⟩ := Option.bind_eq_some_iff.mp hp
      rw [hpattern] at hdeciding
      exact ⟨pattern, hdeciding,
        (exists_lookup_iff hacl pattern fun _ => givesCapability_merged).mp ⟨p, hlookup, hgives⟩⟩
    rintro ⟨pattern, hpattern, hopened⟩
    rw [hdeciding.unique hpattern]
    exact (exists_lookup_iff hacl pattern fun _ => givesCapability_merged).mpr hopened
  have hglob : (longestPrefix acl path).isSome = true ↔
      ∃ start, ⟨.glob, start⟩ ∈ patterns ∧ start <+: path := by
    constructor
    · intro hsome
      obtain ⟨start, hstart⟩ := Option.isSome_iff_exists.mp hsome
      obtain ⟨hbegins, hfound, _⟩ := longestPrefix_eq_some hstart
      exact ⟨start, (hstored _).mpr hfound, hbegins⟩
    rintro ⟨start, hmem, hbegins⟩
    by_contra hnone
    rw [Bool.not_eq_true, Option.isSome_eq_false_iff, Option.isNone_iff_eq_none] at hnone
    exact longestPrefix_eq_none hnone hbegins ((hstored _).mp hmem)
  have hempty : order = [] ↔ ∀ pattern ∈ patterns, pattern.kind ≠ .segment := by
    rw [List.eq_nil_iff_forall_not_mem]
    constructor
    · rintro hnone ⟨kind, key⟩ hmem rfl
      exact hnone key ((hkeys key).mpr hmem)
    · intro hnone key hkey
      exact hnone _ ((hkeys key).mp hkey) rfl
  have hsegment : (∃ key ∈ order, OpensMount acl path key) ↔
      ∃ key, Reaches path key ∧ Opened policies ⟨.segment, key⟩ := by
    simp only [opensMount_iff hparsed hacl]
    constructor
    · rintro ⟨key, _, h⟩
      exact ⟨key, h⟩
    · rintro ⟨key, h⟩
      exact ⟨key, (hkeys key).mpr h.2.mem, h⟩
  have hexactWalk := walkPrefix_iff hacl .exact path
  have hglobWalk := walkPrefix_iff hacl .glob path
  simp only [ACL.rules] at hexactWalk hglobWalk
  rw [← hcapabilities, ← hexactWalk, ← hglobWalk, ← hglob, ← hempty, ← hsegment,
    ← isSome_checkBareMount hkeysNe horder, hasMountAccess]
  cases (capabilities lib acl order caller (trimmedPath caller path)).contains
      (ofString "deny") with
  | false => simp
  | true => simp [or_assoc]

/-- A mount is shown without any grant iff one of the checks shows it anyway. -/
theorem mount_needs_grant_iff (hparsed : ParsedPolicies lib policies)
    (hacl : newACL lib space policies = .ok acl) (hroot : acl.root = false)
    (horder : order.Perm acl.segmentWildcardPaths.keys) {caller : Namespace}
    (hpath : MountPath caller path) :
    (hasMountAccess lib acl order caller path = true → Granted policies path) ↔
      (ShownAnyway policies path → Granted policies path) := by
  have hform := wellFormed_of_parsed hparsed
  obtain ⟨hslash, hsplit, _⟩ := hpath.split
  have hsame : ∀ {pattern}, Opened policies pattern → Matches pattern path →
      Granted policies path := by
    intro pattern hopened hmatches
    rw [← List.append_nil path] at hmatches
    exact hopened.granted hmatches
  rw [hasMountAccess_iff hparsed hacl hroot horder hpath]
  constructor
  · rintro h (hprefixes | ⟨hexact, hopened⟩ | ⟨key, hopened, hmatches⟩)
    · exact h (.inr (.inr (.inr (.inl hprefixes))))
    · refine h (.inl ⟨⟨.exact, trimSuffix path (ofString "/")⟩, ?_, hopened⟩)
      rw [Deciding, if_neg hexact, if_pos ⟨rfl, hopened.mem⟩]
    by_cases hends : hasSuffix key (ofString "*") = true
    · -- With a trailing asterisk the pattern matches the mount path too.
      apply hsame hopened
      have hcovers : Covers (hasSuffix key (ofString "*")) (splitByte 0x2f (currWCPath key))
        (splitByte 0x2f (trimSuffix path (ofString "/"))) := hmatches
      show Covers (hasSuffix key (ofString "*")) (splitByte 0x2f (currWCPath key))
        (splitByte 0x2f path)
      rw [hends] at hcovers ⊢
      rw [hsplit]
      exact hcovers.append_right _
    · rw [Bool.not_eq_true] at hends
      have hreaches := reaches_of_matches hpath hends hmatches
      exact h (.inr (.inr (.inr (.inr ⟨key, hreaches, hopened⟩))))
  · rintro h (⟨pattern, hdeciding, hopened⟩ | ⟨rest, hopened⟩ | ⟨rest, hopened⟩ | hprefixes |
      ⟨key, hreaches, hopened⟩)
    · simp only [Deciding] at hdeciding
      split_ifs at hdeciding with hexact hbare hfolder
      · cases hdeciding
        exact hsame hopened rfl
      · cases hdeciding
        exact h (.inr (.inl ⟨hexact, hopened⟩))
      · obtain ⟨⟨_, hkind, hmatches⟩, _⟩ := hdeciding
        obtain ⟨kind, key⟩ := pattern
        cases kind with
        | exact => exact (hkind rfl).elim
        | glob =>
          have hbegins : key <+: trimSuffix path (ofString "/") := hmatches
          exact hsame hopened (hbegins.trans ⟨_, hslash.symm⟩)
        | segment => exact h (.inr (.inr ⟨key, hopened, hmatches⟩))
      · exact hsame hopened hdeciding.1.2.2
    · exact hopened.granted rfl
    · exact hopened.granted List.prefix_rfl
    · exact h (.inl hprefixes)
    · rcases matches_of_reaches hpath (hform _ hopened.mem) hreaches with
        ⟨rest, hmatches⟩ | hmatches
      · exact hopened.granted hmatches
      · exact h (.inr (.inr ⟨key, hopened, hmatches⟩))

/-! One rule for a mount -/

def mountPolicy (capability : UInt32) : Policy where
  name := ofString "mount"
  paths :=
    [{ path := ofString "secret/"
       isPrefix := true
       permissions := { capabilitiesBitmap := capability } }]
  space := rootSpace

theorem parsed_mountPolicy (name : String) {capability : UInt32}
    (h : parsePaths plainLibrary rootSpace
        [{ key := ofString "secret/*", capabilities := [ofString name] }] =
      .ok (mountPolicy capability).paths) :
    ParsedPolicies plainLibrary [some (mountPolicy capability)] := by
  intro policy hmem _
  obtain rfl : policy = mountPolicy capability := by simpa using hmem
  exact ⟨_, h⟩

theorem mountPath_secret : MountPath rootSpace (ofString "secret/") :=
  ⟨List.nil_prefix, rfl, by decide⟩

/-- A mount is shown although the only rule denies everything below it. -/
theorem denied_mount_shown :
    ∃ acl, newACL plainLibrary rootSpace [some (mountPolicy denyCapabilityInt)] = .ok acl ∧
      acl.root = false ∧
      ParsedPolicies plainLibrary [some (mountPolicy denyCapabilityInt)] ∧
      [].Perm acl.segmentWildcardPaths.keys ∧
      MountPath rootSpace (ofString "secret/") ∧
      hasMountAccess plainLibrary acl [] rootSpace (ofString "secret/") = true ∧
      ¬ Granted [some (mountPolicy denyCapabilityInt)] (ofString "secret/") := by
  refine ⟨_, rfl, rfl, parsed_mountPolicy "deny" rfl, List.Perm.refl _, mountPath_secret, rfl, ?_⟩
  rintro ⟨entry, hentry, hgives, _⟩
  obtain rfl := List.mem_singleton.mp hentry
  cases hgives

theorem readable_mount_granted :
    ∃ acl, newACL plainLibrary rootSpace [some (mountPolicy readCapabilityInt)] = .ok acl ∧
      hasMountAccess plainLibrary acl [] rootSpace (ofString "secret/") = true ∧
      Granted [some (mountPolicy readCapabilityInt)] (ofString "secret/") := by
  refine ⟨_, rfl, rfl, ?_⟩
  have hgranted : Granted [some (mountPolicy readCapabilityInt)] (ofString "secret/") :=
    ⟨_, (.head _), rfl, [], List.prefix_rfl⟩
  have hparsed : ParsedPolicies plainLibrary [some (mountPolicy readCapabilityInt)] :=
    parsed_mountPolicy "read" rfl
  have hacl : newACL plainLibrary rootSpace [some (mountPolicy readCapabilityInt)] = .ok _ := rfl
  exact (mount_needs_grant_iff hparsed hacl rfl (List.Perm.refl _) mountPath_secret).mpr
    (fun _ => hgranted) rfl

end VaultProofs.MountAccess
