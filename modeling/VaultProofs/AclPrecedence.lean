import Mathlib.Data.Prod.Lex
import VaultProofs.RankedChoices
import VaultProofs.LongestPrefixes
import VaultProofs.AclOperations

/-!
Which of several matching patterns decides about a path. The documentation ranks them by the first
wildcard segment or the trailing asterisk; the lookup takes the first plus sign for the first
wildcard segment.
-/

namespace VaultProofs.AclPrecedence

open GoStrings RankedChoices LongestPrefixes ApprovalEntries AclPolicies AclRules AclLookup
open AclOperations

/-! The documented order -/

/-- Segments agree one by one, and `+` with any segment. With a trailing asterisk the last segment
of the pattern only has to start the one it meets. -/
inductive Covers (isPrefix : Bool) : List GoString → List GoString → Prop
  | done (h : isPrefix = false) : Covers isPrefix [] []
  | segment {aclPart part : GoString} {aclParts parts : List GoString}
      (h : aclPart = ofString "+" ∨ aclPart = part) (rest : Covers isPrefix aclParts parts) :
      Covers isPrefix (aclPart :: aclParts) (part :: parts)
  | glob {last part : GoString} {parts : List GoString} (h : isPrefix = true)
      (start : last <+: part) : Covers isPrefix [last] (part :: parts)

def endsInGlob (pattern : Pattern) : Bool :=
  match pattern.kind with
  | .exact => false
  | .glob => true
  | .segment => hasSuffix pattern.path (ofString "*")

def bare (pattern : Pattern) : GoString :=
  match pattern.kind with
  | .segment => currWCPath pattern.path
  | _ => pattern.path

def segments (pattern : Pattern) : List GoString :=
  splitByte 0x2f (bare pattern)

def Matches (pattern : Pattern) (path : GoString) : Prop :=
  match pattern.kind with
  | .exact => pattern.path = path
  | .glob => pattern.path <+: path
  | .segment => Covers (endsInGlob pattern) (segments pattern) (splitByte 0x2f path)

def plusSegments (pattern : Pattern) : Nat :=
  match pattern.kind with
  | .segment => (segments pattern).count (ofString "+")
  | _ => 0

/-- Where the first `+` segment starts, or else the last segment ends. -/
def firstPlusSegment : List GoString → Nat
  | [] => 0
  | [part] => if part = ofString "+" then 0 else part.length
  | part :: parts =>
    if part = ofString "+" then 0 else part.length + 1 + firstPlusSegment parts

def wildcardPosition (pattern : Pattern) : Int :=
  match pattern.kind with
  | .segment => firstPlusSegment (segments pattern)
  | _ => pattern.path.length

-- The first plus sign of the pattern may stand inside a segment.
def plusPosition (pattern : Pattern) : Int :=
  match pattern.kind with
  | .segment => indexByte pattern.path 0x2b
  | _ => pattern.path.length

abbrev Priority := ℤ ×ₗ Bool ×ₗ ℕᵒᵈ ×ₗ ℕ ×ₗ List ℕ

/-- A later position; then no asterisk; then fewer `+` segments; then the longer and the
lexicographically greater pattern. -/
def priority (position : Pattern → Int) (pattern : Pattern) : Priority :=
  toLex (position pattern, toLex (!endsInGlob pattern,
    toLex (OrderDual.toDual (plusSegments pattern),
      toLex ((bare pattern).length, (bare pattern).map UInt8.toNat))))

def candidates (patterns : List Pattern) (path : GoString) : Set Pattern :=
  {pattern | pattern ∈ patterns ∧ pattern.kind ≠ .exact ∧ Matches pattern path}

/-- The pattern equal to the path, or else the matching one of the greatest priority. -/
def Precedence (position : Pattern → Int) (patterns : List Pattern) (path : GoString)
    (choice : Option Pattern) : Prop :=
  if ⟨.exact, path⟩ ∈ patterns then choice = some ⟨.exact, path⟩
  else Chosen (priority position) (candidates patterns path) choice

/-! Patterns as they are parsed -/

def WellFormed (pattern : Pattern) : Prop :=
  match pattern.kind with
  | .exact => True
  | .glob => segmentWildcards (pattern.path ++ ofString "*") = false
  | .segment =>
    segmentWildcards pattern.path = true ∧
      containsText pattern.path (ofString "+*") = false

theorem wellFormed_of_parsePath {lib : Library} {space : Namespace} {block : PathBlock}
    {pc : PathRules} (h : parsePath lib space block = .ok pc) : WellFormed pc.pattern := by
  have hpath := (parsePath_eq_ok h).1
  obtain ⟨path, isPrefix, wildcards, permissions⟩ := pc
  unfold classifyPath at hpath
  split at hpath
  · cases hpath
  rename_i hforbidden
  split at hpath
  · rename_i hwild
    cases hpath
    exact ⟨hwild, Bool.eq_false_iff.mpr hforbidden⟩
  rename_i hwild
  split at hpath
  · rename_i hstar
    cases hpath
    show segmentWildcards (trimSuffix _ (ofString "*") ++ ofString "*") = false
    rw [trimSuffix_append hstar]
    exact Bool.eq_false_iff.mpr hwild
  · cases hpath
    exact trivial

theorem wellFormed_of_parsed {lib : Library} {policies : List (Option Policy)}
    (hparsed : ParsedPolicies lib policies) :
    ∀ pattern ∈ patternsOf (ruleEntries policies), WellFormed pattern := by
  intro pattern hpattern
  obtain ⟨entry, hentry, rfl⟩ := List.mem_map.mp hpattern
  obtain ⟨block, hblock⟩ := hparsed.block hentry
  exact wellFormed_of_parsePath hblock

theorem bare_append {pattern : Pattern} (hkind : pattern.kind = .segment)
    (hglob : endsInGlob pattern = true) : bare pattern ++ ofString "*" = pattern.path := by
  unfold endsInGlob at hglob
  unfold bare
  rw [hkind] at hglob ⊢
  exact trimSuffix_append hglob

theorem last_segment_ne_plus {pattern : Pattern} (hkind : pattern.kind = .segment)
    (hform : WellFormed pattern) (hglob : endsInGlob pattern = true) {init : List GoString}
    {last : GoString} (hsplit : segments pattern = init ++ [last]) : last ≠ ofString "+" := by
  rintro rfl
  obtain ⟨kind, path⟩ := pattern
  obtain rfl : kind = .segment := hkind
  have hforbidden := containsText_of_last_segment hglob hsplit
  rw [hform.2] at hforbidden
  cases hforbidden

theorem eq_of_bare_eq {p q : Pattern} (hp : WellFormed p) (hq : WellFormed q)
    (hpkind : p.kind ≠ .exact) (hqkind : q.kind ≠ .exact)
    (hglob : endsInGlob p = endsInGlob q) (hbare : bare p = bare q) : p = q := by
  obtain ⟨pkind, ppath⟩ := p
  obtain ⟨qkind, qpath⟩ := q
  -- A prefix pattern is stored without its asterisk, and with it would have no `+` segment.
  have hmixed : ∀ {start path}, WellFormed ⟨.glob, start⟩ → WellFormed ⟨.segment, path⟩ →
      endsInGlob ⟨.segment, path⟩ = true → bare ⟨.segment, path⟩ = start → False := by
    intro start path hstart hpath hends heq
    have happend := bare_append rfl hends
    rw [heq] at happend
    have hwild : segmentWildcards (start ++ ofString "*") = true := happend ▸ hpath.1
    exact Bool.false_ne_true (hstart.symm.trans hwild)
  cases pkind with
  | exact => exact (hpkind rfl).elim
  | glob =>
    cases qkind with
    | exact => exact (hqkind rfl).elim
    | glob => exact congrArg (Pattern.mk .glob) hbare
    | segment => exact (hmixed hp hq hglob.symm hbare.symm).elim
  | segment =>
    cases qkind with
    | exact => exact (hqkind rfl).elim
    | glob => exact (hmixed hq hp hglob hbare).elim
    | segment =>
      by_cases hends : endsInGlob ⟨.segment, ppath⟩ = true
      · have hppath := bare_append rfl hends
        have hqpath := bare_append rfl (hglob ▸ hends)
        rw [hbare, hqpath] at hppath
        exact congrArg (Pattern.mk .segment) hppath.symm
      have hplain : ∀ path, endsInGlob ⟨.segment, path⟩ ≠ true →
          bare ⟨.segment, path⟩ = path := by
        intro path hpath
        exact if_neg hpath
      rw [hplain ppath hends, hplain qpath (hglob ▸ hends)] at hbare
      exact congrArg (Pattern.mk .segment) hbare

theorem priority_injOn (position : Pattern → Int) {S : Set Pattern}
    (hform : ∀ pattern ∈ S, WellFormed pattern ∧ pattern.kind ≠ .exact) :
    Set.InjOn (priority position) S := by
  intro p hp q hq heq
  obtain ⟨hpform, hpkind⟩ := hform p hp
  obtain ⟨hqform, hqkind⟩ := hform q hq
  simp only [priority, toLex_inj, Prod.mk.injEq] at heq
  obtain ⟨_, hglob, _, _, hbytes⟩ := heq
  have htoNat : Function.Injective UInt8.toNat := fun _ _ => UInt8.toNat_inj.mp
  have hbare : bare p = bare q := List.map_injective_iff.mpr htoNat hbytes
  exact eq_of_bare_eq hpform hqform hpkind hqkind (Bool.not_inj hglob) hbare

/-! Comparing segments -/

variable {isPrefix : Bool} {aclPart part : GoString} {aclParts parts : List GoString}

theorem Covers.length_le (h : Covers isPrefix aclParts parts) : aclParts.length ≤ parts.length := by
  induction h with
  | done _ => exact le_rfl
  | segment _ _ ih => exact Nat.succ_le_succ ih
  | glob _ _ => simp

theorem Covers.length_eq (h : Covers false aclParts parts) : aclParts.length = parts.length := by
  generalize hb : false = isPrefix at h
  induction h with
  | done _ => rfl
  | segment _ _ ih => exact congrArg Nat.succ ih
  | glob h _ => exact absurd (hb.trans h) Bool.false_ne_true

theorem covers_cons (hmore : isPrefix = true → aclParts ≠ []) :
    Covers isPrefix (aclPart :: aclParts) (part :: parts) ↔
      (aclPart = ofString "+" ∨ aclPart = part) ∧ Covers isPrefix aclParts parts := by
  constructor
  · intro h
    cases h with
    | segment h rest => exact ⟨h, rest⟩
    | glob h _ => exact (hmore h rfl).elim
  · rintro ⟨h, rest⟩
    exact .segment h rest

theorem covers_last : Covers true [aclPart] (part :: parts) ↔ aclPart <+: part := by
  constructor
  · intro h
    cases h with
    | segment _ rest => cases rest with
      | done h => cases h
    | glob _ start => exact start
  · exact .glob rfl

theorem Covers.append_right (h : Covers true aclParts parts) (more : List GoString) :
    Covers true aclParts (parts ++ more) := by
  generalize hb : true = isPrefix at h ⊢
  induction h with
  | done h => exact absurd (hb.trans h) Bool.false_ne_true.symm
  | segment h _ ih => exact .segment h ih
  | glob h start => exact .glob h start

theorem Covers.refl_of_ne_nil (hne : isPrefix = true → aclParts ≠ []) :
    Covers isPrefix aclParts aclParts := by
  induction aclParts with
  | nil =>
    refine .done ?_
    by_contra hb
    exact hne (Bool.eq_true_of_not_eq_false hb) rfl
  | cons aclPart aclParts ih =>
    by_cases hlast : isPrefix = true ∧ aclParts = []
    · obtain ⟨hb, rfl⟩ := hlast
      exact .glob hb List.prefix_rfl
    · exact .segment (.inr rfl) (ih fun hb hnil => hlast ⟨hb, hnil⟩)

theorem Covers.append {more more' : List GoString} (h : Covers false aclParts parts)
    (hmore : Covers isPrefix more more') : Covers isPrefix (aclParts ++ more) (parts ++ more') := by
  generalize hb : false = plain at h
  induction h with
  | done _ => exact hmore
  | segment h _ ih => exact .segment h ih
  | glob h _ => exact absurd (hb.trans h) Bool.false_ne_true

/-- Covering without an asterisk is covering with one, if the last segment is no `+`. -/
theorem Covers.glob_of_last {init : List GoString} {last : GoString}
    (h : Covers false (init ++ [last]) parts) (hplus : last ≠ ofString "+") :
    Covers true (init ++ [last]) parts := by
  induction init generalizing parts with
  | nil =>
    cases h with
    | segment h _ => exact .glob rfl (h.resolve_left hplus ▸ List.prefix_rfl)
    | glob h _ => cases h
  | cons aclPart init ih =>
    cases parts with
    | nil => exact absurd h.length_eq (by simp)
    | cons part parts =>
      obtain ⟨hpart, hrest⟩ := (covers_cons fun hb => absurd hb Bool.false_ne_true).mp h
      exact .segment hpart (ih hrest)

theorem compareSegments_agree {bareMount : Bool} (h : aclPart = ofString "+" ∨ aclPart = part)
    (wildcards : Nat) (collected : List GoString) :
    compareSegments bareMount isPrefix (aclPart :: aclParts) (part :: parts) wildcards collected =
      if bareMount && parts.length == 1 then .atMount (collected ++ [part])
      else compareSegments bareMount isPrefix aclParts parts
        (wildcards + [aclPart].count (ofString "+")) (collected ++ [part]) := by
  by_cases hplus : aclPart = ofString "+"
  · simp [compareSegments, hplus]
  · obtain rfl := h.resolve_left hplus
    simp [compareSegments, hplus]

/-- Of a pattern that passes the guards, the comparison says whether it covers the path, and counts
its `+` segments. -/
theorem compareSegments_spec (hlen : aclParts.length ≤ parts.length)
    (hexact : isPrefix = false → aclParts.length = parts.length)
    (hlast : isPrefix = true → ∃ init last, aclParts = init ++ [last] ∧ last ≠ ofString "+")
    (wildcards : Nat) (collected : List GoString) :
    (Covers isPrefix aclParts parts ∧
        compareSegments false isPrefix aclParts parts wildcards collected =
          .matched (wildcards + aclParts.count (ofString "+"))) ∨
      (¬ Covers isPrefix aclParts parts ∧
        compareSegments false isPrefix aclParts parts wildcards collected = .mismatch) := by
  induction aclParts generalizing parts wildcards collected with
  | nil =>
    have hplain : isPrefix = false := by
      by_contra hb
      obtain ⟨init, last, hsplit, _⟩ := hlast (Bool.eq_true_of_not_eq_false hb)
      simp at hsplit
    obtain rfl : parts = [] := List.eq_nil_of_length_eq_zero (hexact hplain).symm
    exact .inl ⟨.done hplain, rfl⟩
  | cons aclPart aclParts ih =>
    obtain ⟨part, parts, rfl⟩ := List.exists_cons_of_length_pos
      (Nat.lt_of_lt_of_le (Nat.succ_pos _) hlen)
    by_cases hone : isPrefix = true ∧ aclParts = []
    · obtain ⟨rfl, rfl⟩ := hone
      obtain ⟨init, last, hsplit, hplus⟩ := hlast rfl
      obtain rfl : aclPart = last := by simpa using congrArg List.getLast? hsplit
      rw [covers_last]
      by_cases hstart : aclPart <+: part
      · refine .inl ⟨hstart, ?_⟩
        by_cases heq : aclPart = part
        · obtain rfl := heq
          simp [compareSegments, hplus]
        · have hstarts : hasPrefix part aclPart = true := List.isPrefixOf_iff_prefix.mpr hstart
          simp [compareSegments, hplus, heq, hstarts]
      refine .inr ⟨hstart, ?_⟩
      have heq : aclPart ≠ part := fun heq => hstart (heq ▸ List.prefix_rfl)
      have hstarts : hasPrefix part aclPart = false :=
        Bool.eq_false_iff.mpr fun h => hstart (List.isPrefixOf_iff_prefix.mp h)
      simp [compareSegments, hplus, heq, hstarts]
    have hmore : isPrefix = true → aclParts ≠ [] := fun hb hnil => hone ⟨hb, hnil⟩
    rw [covers_cons hmore]
    by_cases hagree : aclPart = ofString "+" ∨ aclPart = part
    · have hlast' : isPrefix = true →
          ∃ init last, aclParts = init ++ [last] ∧ last ≠ ofString "+" := by
        intro hb
        obtain ⟨init, last, hsplit, hplus⟩ := hlast hb
        cases init with
        | nil => exact (hmore hb (List.cons.inj hsplit).2).elim
        | cons first init => exact ⟨init, last, (List.cons.inj hsplit).2, hplus⟩
      have hrest := ih (Nat.le_of_succ_le_succ hlen) (fun hb => Nat.succ.inj (hexact hb)) hlast'
        (wildcards + [aclPart].count (ofString "+")) (collected ++ [part])
      rw [compareSegments_agree hagree]
      rw [Nat.add_assoc, ← List.count_append] at hrest
      rcases hrest with ⟨hcovers, hmatched⟩ | ⟨hcovers, hmismatch⟩
      · exact .inl ⟨⟨hagree, hcovers⟩, hmatched⟩
      · exact .inr ⟨fun h => hcovers h.2, hmismatch⟩
    · refine .inr ⟨fun h => hagree h.1, ?_⟩
      rw [not_or] at hagree
      have hmiss : (isPrefix && aclParts.isEmpty) = false := by simpa using hmore
      simp [compareSegments, hagree.1, hagree.2, hmiss]

/-! The lookup -/

def descrOf (pattern : Pattern) : WcPathDescr where
  firstWCOrGlob := plusPosition pattern
  wildcards := plusSegments pattern
  isPrefix := endsInGlob pattern
  wcPath := bare pattern
  perms := pattern

theorem first_difference {β : Type} [LinearOrder β] {x y : β} {below above : Prop}
    [Decidable below] [Decidable above] (hbelow : below ↔ x < y) (habove : above ↔ y < x)
    (rest : Bool) :
    (if below then true else if above then false else rest) = true ↔
      x < y ∨ x = y ∧ rest = true := by
  rcases lt_trichotomy x y with h | rfl | h
  · simp [hbelow, h]
  · simp [hbelow, habove]
  · simp [hbelow, habove, h, h.not_gt, h.ne']

theorem less_descrOf (p q : Pattern) :
    less (descrOf p) (descrOf q) = true ↔ priority plusPosition p < priority plusPosition q := by
  have hglob : ∀ g g' : Bool, (g && !g') = true ↔ (!g) < (!g') := by decide
  have hglob' : ∀ g g' : Bool, (!g && g') = true ↔ (!g') < (!g) := by decide
  have hdual : ∀ n m : ℕ, n < m ↔ OrderDual.toDual m < OrderDual.toDual n :=
    fun _ _ => OrderDual.toDual_lt_toDual.symm
  simp only [priority, Prod.Lex.toLex_lt_toLex]
  rw [less, first_difference Iff.rfl Iff.rfl, first_difference (hglob _ _) (hglob' _ _),
    first_difference (hdual _ _) (hdual _ _), first_difference Iff.rfl Iff.rfl, stringLess,
    decide_eq_true_iff]
  rfl

theorem visitPattern_spec (acl : ACL) (path : GoString) (descrs : List WcPathDescr)
    {key : GoString} (hform : WellFormed ⟨.segment, key⟩) :
    (Matches ⟨.segment, key⟩ path ∧
        visitPattern acl path false descrs key = .ok (descrs ++ [descrOf ⟨.segment, key⟩])) ∨
      (¬ Matches ⟨.segment, key⟩ path ∧ visitPattern acl path false descrs key = .ok descrs) := by
  have hne : key ≠ [] := by
    rintro rfl
    cases hform.1
  show (Covers (hasSuffix key (ofString "*")) (splitByte 0x2f (currWCPath key))
    (splitByte 0x2f path) ∧ _) ∨ (¬ Covers (hasSuffix key (ofString "*"))
    (splitByte 0x2f (currWCPath key)) (splitByte 0x2f path) ∧ _)
  by_cases hshort : (splitByte 0x2f path).length < (splitByte 0x2f (currWCPath key)).length
  · refine .inr ⟨fun hcovers => absurd hcovers.length_le (Nat.not_le.mpr hshort), ?_⟩
    simp [visitPattern, hne, hshort]
  by_cases hother : hasSuffix key (ofString "*") = false ∧
      (splitByte 0x2f (currWCPath key)).length ≠ (splitByte 0x2f path).length
  · rw [hother.1]
    refine .inr ⟨fun hcovers => hother.2 hcovers.length_eq, ?_⟩
    simp [visitPattern, hne, hshort, hother.1, hother.2]
  have hlen : hasSuffix key (ofString "*") = false →
      (splitByte 0x2f (currWCPath key)).length = (splitByte 0x2f path).length :=
    fun hb => by_contra fun hlen => hother ⟨hb, hlen⟩
  have hlast : hasSuffix key (ofString "*") = true → ∃ init last,
      splitByte 0x2f (currWCPath key) = init ++ [last] ∧ last ≠ ofString "+" := by
    intro hb
    have hsplit := (List.dropLast_append_getLast
      (splitByte_ne_nil 0x2f (currWCPath key))).symm
    exact ⟨_, _, hsplit, last_segment_ne_plus rfl hform hb hsplit⟩
  simp only [visitPattern]
  rw [if_neg hne, if_neg (by simpa using hshort), if_neg (by simpa using hother)]
  rcases compareSegments_spec (Nat.le_of_not_lt hshort) hlen hlast 0 [] with
    ⟨hcovers, hcompare⟩ | ⟨hcovers, hcompare⟩
  · rw [hcompare, Nat.zero_add]
    exact .inl ⟨hcovers, rfl⟩
  · rw [hcompare]
    exact .inr ⟨hcovers, rfl⟩

theorem foldlM_visitPattern (acl : ACL) (path : GoString) {order : List GoString}
    (hform : ∀ key ∈ order, WellFormed ⟨.segment, key⟩) (start : List Pattern) :
    ∃ found : List Pattern,
      order.foldlM (visitPattern acl path false) (start.map descrOf) =
          .ok ((start ++ found).map descrOf) ∧
        ∀ pattern, pattern ∈ found ↔
          pattern.kind = .segment ∧ pattern.path ∈ order ∧ Matches pattern path := by
  induction order generalizing start with
  | nil => exact ⟨[], by rw [List.append_nil]; rfl, by simp⟩
  | cons key order ih =>
    have hrest : ∀ key ∈ order, WellFormed ⟨.segment, key⟩ :=
      fun key' hmem => hform key' (.tail _ hmem)
    have hfirst : ∀ pattern : Pattern, pattern.kind = .segment → pattern.path = key →
        pattern = ⟨.segment, key⟩ := by
      rintro ⟨kind, keyPath⟩ rfl rfl
      rfl
    rcases visitPattern_spec acl path (start.map descrOf) (hform key (.head _)) with
      ⟨hmatch, hvisit⟩ | ⟨hmatch, hvisit⟩
    · obtain ⟨found, hfold, hfound⟩ := ih hrest (start ++ [⟨.segment, key⟩])
      refine ⟨⟨.segment, key⟩ :: found, ?_, ?_⟩
      · rw [List.map_append, List.append_assoc] at hfold
        rw [List.foldlM_cons, hvisit]
        exact hfold
      intro pattern
      rw [List.mem_cons, hfound, List.mem_cons]
      constructor
      · rintro (rfl | ⟨hkind, hmem, hmatches⟩)
        · exact ⟨rfl, .inl rfl, hmatch⟩
        · exact ⟨hkind, .inr hmem, hmatches⟩
      · rintro ⟨hkind, hkey | hmem, hmatches⟩
        · exact .inl (hfirst pattern hkind hkey)
        · exact .inr ⟨hkind, hmem, hmatches⟩
    obtain ⟨found, hfold, hfound⟩ := ih hrest start
    refine ⟨found, ?_, ?_⟩
    · rw [List.foldlM_cons, hvisit]
      exact hfold
    intro pattern
    rw [hfound, List.mem_cons]
    constructor
    · rintro ⟨hkind, hmem, hmatches⟩
      exact ⟨hkind, .inr hmem, hmatches⟩
    rintro ⟨hkind, hkey | hmem, hmatches⟩
    · rw [hfirst pattern hkind hkey] at hmatches
      exact (hmatch hmatches).elim
    · exact ⟨hkind, hmem, hmatches⟩

theorem longestPrefix_eq_some {acl : ACL} {path start : GoString}
    (h : longestPrefix acl path = some start) :
    start <+: path ∧ (acl.lookup ⟨.glob, start⟩).isSome ∧
      ∀ start', start' <+: path → (acl.lookup ⟨.glob, start'⟩).isSome →
        start'.length ≤ start.length :=
  longestWith_eq_some h

theorem longestPrefix_eq_none {acl : ACL} {path : GoString} (h : longestPrefix acl path = none)
    {start : GoString} (hstarts : start <+: path) : ¬ (acl.lookup ⟨.glob, start⟩).isSome :=
  Bool.eq_false_iff.mp (longestWith_eq_none h hstarts)

section Choice

variable {acl : ACL} {order : List GoString} {patterns : List Pattern}

theorem lastDescr_map_descrOf (found : List Pattern) :
    (lastDescr (found.map descrOf)).map (·.perms) =
      (found.insertionSort fun p q => !less (descrOf q) (descrOf p)).getLast? := by
  rw [lastDescr, ← List.map_insertionSort _ _ descrOf found fun _ _ _ _ => Iff.rfl,
    List.getLast?_map, Option.map_map]
  exact Option.map_id'

variable {path : GoString}

theorem checkAllowed_eq_getLast (horder : order.Perm acl.segmentWildcardPaths.keys)
    {found : List Pattern}
    (hfold : order.foldlM (visitPattern acl path false)
      (((longestPrefix acl path).map (Pattern.mk .glob)).toList.map descrOf) =
        .ok ((((longestPrefix acl path).map (Pattern.mk .glob)).toList ++ found).map descrOf)) :
    checkAllowedFromNonExactPaths acl order path false =
      ((((longestPrefix acl path).map (Pattern.mk .glob)).toList ++ found).insertionSort
        fun p q => !less (descrOf q) (descrOf p)).getLast? := by
  have hstart : ((longestPrefix acl path).map prefixDescr).toList =
      ((longestPrefix acl path).map (Pattern.mk .glob)).toList.map descrOf := by
    cases longestPrefix acl path <;> rfl
  rw [← lastDescr_map_descrOf]
  simp only [checkAllowedFromNonExactPaths]
  split
  · rename_i hempty
    -- No pattern is visited, and what was found before it is all there is.
    have hkeys : acl.segmentWildcardPaths.keys = [] := by
      rw [AList.keys, List.isEmpty_iff.mp hempty]
      rfl
    obtain rfl : order = [] := List.perm_nil.mp (hkeys ▸ horder)
    have hfound := Except.ok.inj hfold
    rw [← hfound]
    cases longestPrefix acl path <;> rfl
  · rw [hstart, hfold]
    rfl

open Classical in
/-- Which pattern decides about an operation. Listing a folder looks for the path without
its trailing slash first. -/
def Deciding (patterns : List Pattern) (op : Operation) (path : GoString)
    (choice : Option Pattern) : Prop :=
  let bare := trimSuffix path (ofString "/")
  if ⟨.exact, path⟩ ∈ patterns then choice = some ⟨.exact, path⟩
  else if op = .list ∧ ⟨.exact, bare⟩ ∈ patterns then choice = some ⟨.exact, bare⟩
  else if op = .list ∧ hasSuffix path (ofString "/") ∧ (candidates patterns bare).Nonempty then
    Chosen (priority plusPosition) (candidates patterns bare) choice
  else Chosen (priority plusPosition) (candidates patterns path) choice

variable {op : Operation}

theorem Deciding.unique {c d : Option Pattern} (hc : Deciding patterns op path c)
    (hd : Deciding patterns op path d) : c = d := by
  simp only [Deciding] at hc hd
  split_ifs at hc hd
  · rw [hc, hd]
  · rw [hc, hd]
  · exact hc.unique hd
  · exact hc.unique hd

theorem Deciding.mem {pattern : Pattern} (h : Deciding patterns op path (some pattern)) :
    pattern ∈ patterns := by
  simp only [Deciding] at h
  split_ifs at h with hexact hbare
  · rw [Option.some.inj h]
    exact hexact
  · rw [Option.some.inj h]
    exact hbare.2
  · exact h.1.1
  · exact h.1.1

variable (hstored : ∀ pattern, pattern ∈ patterns ↔ (acl.lookup pattern).isSome)

include hstored

theorem exactPattern_eq (path : GoString) :
    exactPattern acl path = if ⟨.exact, path⟩ ∈ patterns then some ⟨.exact, path⟩ else none := by
  simp only [exactPattern, hstored]
  rfl

variable (horder : order.Perm acl.segmentWildcardPaths.keys)

include horder

theorem mem_order_iff (key : GoString) :
    key ∈ order ↔ ⟨.segment, key⟩ ∈ patterns := by
  rw [horder.mem_iff, ← AList.mem_keys, hstored]
  exact AList.lookup_isSome.symm

variable (hform : ∀ pattern ∈ patterns, WellFormed pattern)

include hform

/-- Without exact patterns the lookup takes the matching pattern of the greatest priority, by the
positions of plus signs. -/
theorem chosen_checkAllowedFromNonExactPaths (path : GoString) :
    Chosen (priority plusPosition) (candidates patterns path)
      (checkAllowedFromNonExactPaths acl order path false) := by
  have hkeys := mem_order_iff hstored horder
  obtain ⟨found, hfold, hfound⟩ := foldlM_visitPattern acl path
    (fun key hkey => hform _ ((hkeys key).mp hkey))
    ((longestPrefix acl path).map (Pattern.mk .glob)).toList
  rw [checkAllowed_eq_getLast horder hfold]
  have hsegment : ∀ pattern : Pattern, pattern.kind = .segment →
      (pattern.path ∈ order ↔ pattern ∈ patterns) := by
    rintro ⟨kind, key⟩ rfl
    exact hkeys key
  have hinj : Set.InjOn (priority plusPosition) (candidates patterns path) :=
    priority_injOn _ fun pattern hpattern => ⟨hform pattern hpattern.1, hpattern.2.1⟩
  have hsub : {pattern | pattern ∈
      ((longestPrefix acl path).map (Pattern.mk .glob)).toList ++ found} ⊆
        candidates patterns path := by
    intro pattern hpattern
    rcases List.mem_append.mp hpattern with hglob | hmem
    · cases hstarts : longestPrefix acl path with
      | none => simp [hstarts] at hglob
      | some start =>
        obtain rfl : pattern = ⟨.glob, start⟩ := by simpa [hstarts] using hglob
        obtain ⟨hstart, hsome, _⟩ := longestPrefix_eq_some hstarts
        exact ⟨(hstored _).mpr hsome, by simp, hstart⟩
    · obtain ⟨hkind, hpath, hmatches⟩ := (hfound pattern).mp hmem
      exact ⟨(hsegment pattern hkind).mp hpath, by simp [hkind], hmatches⟩
  have hrank : ∀ p q : Pattern, (!less (descrOf q) (descrOf p)) = true ↔
      priority plusPosition p ≤ priority plusPosition q := by
    intro p q
    rw [Bool.not_eq_true', ← Bool.not_eq_true, less_descrOf, not_lt]
  apply Chosen.of_subset (chosen_getLast_insertionSort hrank (hinj.mono hsub)) hinj hsub
  rintro ⟨kind, key⟩ ⟨hmem, hkind, hmatches⟩
  cases kind with
  | exact => exact (hkind rfl).elim
  | segment =>
    exact ⟨_, List.mem_append_right _ ((hfound _).mpr ⟨rfl, (hkeys key).mpr hmem, hmatches⟩),
      le_rfl⟩
  | glob =>
    have hsome := (hstored _).mp hmem
    cases hstarts : longestPrefix acl path with
    | none => exact (longestPrefix_eq_none hstarts hmatches hsome).elim
    | some start =>
      obtain ⟨hstart, _, hlongest⟩ := longestPrefix_eq_some hstarts
      refine ⟨⟨.glob, start⟩, by simp, ?_⟩
      rcases (hlongest key hmatches hsome).lt_or_eq with hlt | heq
      · apply le_of_lt
        apply Prod.Lex.toLex_lt_toLex.mpr
        exact .inl (Int.ofNat_lt.mpr hlt)
      · have hbegins := List.prefix_of_prefix_length_le hmatches hstart heq.le
        have hsame : key = start := hbegins.eq_of_length heq
        rw [hsame]

theorem deciding_findPattern (op : Operation) (path : GoString) :
    Deciding patterns op path (findPattern acl order op path) := by
  have hchosen := chosen_checkAllowedFromNonExactPaths hstored horder hform
  simp only [Deciding, findPattern, exactPattern_eq hstored]
  by_cases hexact : ⟨.exact, path⟩ ∈ patterns
  · simp [hexact]
  by_cases hbare : op = .list ∧ ⟨.exact, trimSuffix path (ofString "/")⟩ ∈ patterns
  · simp [hexact, hbare.1, hbare.2]
  have hnone : (if op = .list then
      if ⟨.exact, trimSuffix path (ofString "/")⟩ ∈ patterns then
        some (Pattern.mk .exact (trimSuffix path (ofString "/")))
      else none
    else none) = none := by
    split_ifs with hop hmem
    · exact (hbare ⟨hop, hmem⟩).elim
    · rfl
    · rfl
  rw [if_neg hexact, if_neg hexact, if_neg hbare, hnone]
  by_cases hslash : op = .list ∧ hasSuffix path (ofString "/") = true
  · rw [if_pos hslash]
    have hfirst := hchosen (trimSuffix path (ofString "/"))
    cases hcheck : checkAllowedFromNonExactPaths acl order
        (trimSuffix path (ofString "/")) false with
    | none =>
      rw [hcheck] at hfirst
      have hempty : ¬ (candidates patterns (trimSuffix path (ofString "/"))).Nonempty :=
        Set.not_nonempty_iff_eq_empty.mpr hfirst
      rw [if_neg fun h => hempty h.2.2]
      exact hchosen path
    | some pattern =>
      rw [hcheck] at hfirst
      rw [if_pos ⟨hslash.1, hslash.2, pattern, hfirst.1⟩]
      exact hfirst
  · rw [if_neg hslash, if_neg fun h => hslash ⟨h.1, h.2.1⟩]
    exact hchosen path

end Choice

section Policies

variable {lib : Library} {space : Namespace} {policies : List (Option Policy)} {acl : ACL}
  {order : List GoString}

theorem deciding_newACL (hparsed : ParsedPolicies lib policies)
    (hacl : newACL lib space policies = .ok acl)
    (horder : order.Perm acl.segmentWildcardPaths.keys) (op : Operation) (path : GoString) :
    Deciding (patternsOf (ruleEntries policies)) op path (findPattern acl order op path) :=
  deciding_findPattern (mem_patternsOf_iff hacl) horder (wellFormed_of_parsed hparsed) op path

/-- The permissions checked are those merged for one pattern, in whatever order maps are iterated.
It is the documented one unless another outranks it once the first plus sign counts as the first `+`
segment. -/
theorem documented_precedence_iff (hparsed : ParsedPolicies lib policies)
    (hroot : ∀ policy, some policy ∈ policies → policy.name ≠ ofString "root")
    (hacl : newACL lib space policies = .ok acl)
    (horder : order.Perm acl.segmentWildcardPaths.keys) (caller : Namespace)
    (req : WrappedRequest) (hop : req.operation ≠ .list) :
    let patterns := patternsOf (ruleEntries policies)
    let path := aclPath caller req.path
    let choice := findPattern acl order req.operation path
    (∀ order', order'.Perm acl.segmentWildcardPaths.keys →
        findPattern acl order' req.operation path = choice) ∧
      (req.operation ≠ .help → ∀ capCheckOnly,
        allowOperation lib acl order caller req capCheckOnly =
          checkFound lib (choice.bind (mergedPermissions lib (ruleEntries policies))) req
            capCheckOnly) ∧
      (Precedence wildcardPosition patterns path choice ↔
        ⟨.exact, path⟩ ∈ patterns ∨
          ∀ pattern, Best (priority wildcardPosition) (candidates patterns path) pattern →
            ∀ other ∈ candidates patterns path,
              priority plusPosition other ≤ priority plusPosition pattern) := by
  intro patterns path choice
  have hform := wellFormed_of_parsed hparsed
  have hdeciding := deciding_newACL hparsed hacl horder req.operation path
  have hchoice : Precedence plusPosition patterns path choice := by
    simpa [Deciding, Precedence, hop] using hdeciding
  refine ⟨?_, ?_, ?_⟩
  · intro order' horder'
    exact (deciding_newACL hparsed hacl horder' req.operation path).unique hdeciding
  · intro hhelp capCheckOnly
    have hplain : acl.root = false := by
      rw [root_newACL hacl, List.any_eq_false]
      rintro (_ | policy) hmem
      · simp [isRootPolicy]
      · simp [isRootPolicy, hroot policy hmem]
    have hlookup : acl.lookup = mergedPermissions lib (ruleEntries policies) :=
      funext (lookup_newACL hacl)
    simp only [allowOperation, hplain, if_neg hhelp, hlookup]
    rfl
  unfold Precedence at hchoice ⊢
  by_cases hexact : ⟨.exact, path⟩ ∈ patterns
  · rw [if_pos hexact] at hchoice ⊢
    exact ⟨fun _ => .inl hexact, fun _ => hchoice⟩
  rw [if_neg hexact] at hchoice ⊢
  have hinj : Set.InjOn (priority wildcardPosition) (candidates patterns path) :=
    priority_injOn _ fun pattern hpattern => ⟨hform pattern hpattern.1, hpattern.2.1⟩
  rw [hchoice.iff_not_outranked (patterns.finite_toSet.subset fun _ h => h.1) hinj]
  exact (or_iff_right hexact).symm

end Policies

/-! Two patterns for one path -/

theorem best_of_pair {position : Pattern → Int} {p q : Pattern} {path : GoString}
    (hkind : p.kind ≠ .exact) (hmatches : Matches p path)
    (hlt : priority position q < priority position p) :
    Best (priority position) (candidates [p, q] path) p := by
  refine ⟨⟨(.head _), hkind, hmatches⟩, ?_⟩
  rintro other ⟨hmem, _⟩ hne
  obtain rfl : other = q := by simpa [hne] using hmem
  exact hlt

-- One key below every entry of the folder is denied; everything else there may be read.
def folderPolicy (folder : String) : Policy where
  name := ofString "folder"
  paths :=
    [{ path := ofString (folder ++ "/+/c")
       hasSegmentWildcards := true
       permissions := { capabilitiesBitmap := denyCapabilityInt } },
     { path := ofString (folder ++ "/")
       isPrefix := true
       permissions := { capabilitiesBitmap := readCapabilityInt } }]
  space := rootSpace

def folderBlocks (folder : String) : List PathBlock :=
  [{ key := ofString (folder ++ "/+/c"), capabilities := [ofString "deny"] },
   { key := ofString (folder ++ "/*"), capabilities := [ofString "read"] }]

theorem parsed_folderPolicy {folder : String}
    (h : parsePaths plainLibrary rootSpace (folderBlocks folder) =
      .ok (folderPolicy folder).paths) :
    ParsedPolicies plainLibrary [some (folderPolicy folder)] := by
  intro policy hmem _
  obtain rfl : policy = folderPolicy folder := by simpa using hmem
  exact ⟨folderBlocks folder, h⟩

def readRequest (path : String) : WrappedRequest :=
  { operation := .read, path := ofString path }

/-- A plus sign in a folder's name lifts a deny: the documented order picks the pattern that denies,
and the read is allowed. -/
theorem plus_sign_lifts_deny :
    ∃ acl, newACL plainLibrary rootSpace [some (folderPolicy "a+b")] = .ok acl ∧
      ParsedPolicies plainLibrary [some (folderPolicy "a+b")] ∧
      [ofString "a+b/+/c"].Perm acl.segmentWildcardPaths.keys ∧
      Best (priority wildcardPosition)
        (candidates (patternsOf (ruleEntries [some (folderPolicy "a+b")]))
          (aclPath rootSpace (ofString "a+b/z/c"))) ⟨.segment, ofString "a+b/+/c"⟩ ∧
      (mergedPermissions plainLibrary (ruleEntries [some (folderPolicy "a+b")])
        ⟨.segment, ofString "a+b/+/c"⟩).map (·.denies) = some true ∧
      ¬ Precedence wildcardPosition (patternsOf (ruleEntries [some (folderPolicy "a+b")]))
        (aclPath rootSpace (ofString "a+b/z/c"))
        (findPattern acl [ofString "a+b/+/c"] .read (aclPath rootSpace (ofString "a+b/z/c"))) ∧
      (allowOperation plainLibrary acl [ofString "a+b/+/c"] rootSpace (readRequest "a+b/z/c")
        false).allowed = true := by
  have hbest : Best (priority wildcardPosition)
      (candidates (patternsOf (ruleEntries [some (folderPolicy "a+b")]))
        (aclPath rootSpace (ofString "a+b/z/c"))) ⟨.segment, ofString "a+b/+/c"⟩ := by
    apply best_of_pair
    · decide
    · exact .segment (.inr rfl) (.segment (.inl rfl) (.segment (.inr rfl) (.done rfl)))
    · decide
  refine ⟨_, rfl, parsed_folderPolicy rfl, List.Perm.refl _, hbest, rfl, ?_, rfl⟩
  intro hchoice
  unfold Precedence at hchoice
  have hglob : Best (priority wildcardPosition) _ ⟨.glob, ofString "a+b/"⟩ := hchoice
  exact absurd (hbest.unique hglob) (by decide)

theorem folder_deny_found :
    ∃ acl, newACL plainLibrary rootSpace [some (folderPolicy "a")] = .ok acl ∧
      Precedence wildcardPosition (patternsOf (ruleEntries [some (folderPolicy "a")]))
        (aclPath rootSpace (ofString "a/z/c"))
        (findPattern acl [ofString "a/+/c"] .read (aclPath rootSpace (ofString "a/z/c"))) := by
  have hroot : ∀ policy, some policy ∈ [some (folderPolicy "a")] →
      policy.name ≠ ofString "root" := by
    intro policy hmem
    obtain rfl : policy = folderPolicy "a" := by simpa using hmem
    decide
  refine ⟨_, rfl, ?_⟩
  apply (documented_precedence_iff (parsed_folderPolicy rfl) hroot
    (rfl : newACL plainLibrary rootSpace _ = _) (List.Perm.refl [ofString "a/+/c"]) rootSpace
    (readRequest "a/z/c") (by decide)).2.2.mpr
  right
  intro pattern hbest other hother
  obtain rfl : pattern = ⟨.segment, ofString "a/+/c"⟩ := by
    apply hbest.unique
    apply best_of_pair
    · decide
    · exact .segment (.inr rfl) (.segment (.inl rfl) (.segment (.inr rfl) (.done rfl)))
    · decide
  have hmem : other ∈ [⟨.segment, ofString "a/+/c"⟩, Pattern.mk .glob (ofString "a/")] := hother.1
  obtain rfl | rfl : other = _ ∨ other = _ := by simpa using hmem
  · exact le_rfl
  · decide

end VaultProofs.AclPrecedence
