import Mathlib.Data.List.Infix
import VaultProofs.VaultEffects

/-!
The quota rule that applies to a request. Rules are looked up by scope, from the most specific one
to the global one, and the first that is found applies.
-/

namespace VaultProofs.QuotaRules

open GoStrings
open VaultEffects (GoError)

/-- What a rule is for; an empty text is a field that is not set. -/
structure Scope where
  namespacePath : GoString
  mountPath : GoString := []
  pathSuffix : GoString := []
  role : GoString := []
  deriving DecidableEq

structure Quota extends Scope where
  name : GoString
  inheritable : Bool
  deriving DecidableEq

structure Request where
  path : GoString
  role : GoString
  namespacePath : GoString
  mountPath : GoString

/-- A query of an index: the scope, those of its texts which the index does not have when empty, and
whether a rule has to be inheritable. -/
structure Lookup where
  scope : Scope
  indexed : List GoString
  inherited : Bool := false

def Lookup.finds (l : Lookup) (q : Quota) : Bool :=
  q.toScope = l.scope ∧ [] ∉ l.indexed

def quotaFetchFunc (rules : List Quota) (l : Lookup) : Except GoError (Option Quota) :=
  match rules.filter l.finds with
  | [] => .ok none
  | [quota] => .ok (some quota)
  | _ => .error (.message (ofString "conflicting quota definitions detected"))

def slash : GoString := [47]

def star : GoString := [42]

def root : GoString := ofString "root"

/-- `strings.SplitAfter` at the slash. -/
def splitAfter : GoString → List GoString
  | [] => [[]]
  | byte :: rest =>
    match splitAfter rest with
    | [] => [[byte]]
    | part :: parts => if byte = 47 then [byte] :: part :: parts else (byte :: part) :: parts

def canonicalize (nsPath : GoString) : GoString :=
  if nsPath = [] then []
  else
    let nsPath := trimPrefix nsPath slash
    if hasSuffix nsPath slash then nsPath else nsPath ++ slash

/-- The namespaces above one whose path has been split, nearest first. -/
def parentNamespaces : Nat → List GoString → List GoString
  | 0, _ => []
  | fuel + 1, parts =>
    if 2 < parts.length then
      let parentNs := (parts.take (parts.length - 2)).flatten
      parentNs :: parentNamespaces fuel (splitAfter parentNs)
    else []

/-- Rules are never indexed under an empty namespace. -/
def Request.ns (req : Request) : GoString :=
  if req.namespacePath = [] then root else req.namespacePath

def Request.pathSuffix (req : Request) : GoString :=
  trimSuffix (trimPrefix (trimPrefix req.path req.ns) req.mountPath) slash

def roleLookup (ns mount role : GoString) : Lookup :=
  ⟨{ namespacePath := ns, mountPath := mount, role }, [ns, mount, role], false⟩

def mountLookup (ns mount : GoString) : Lookup :=
  ⟨{ namespacePath := ns, mountPath := mount }, [ns, mount], false⟩

def pathLookup (ns mount suffix : GoString) : Lookup :=
  ⟨{ namespacePath := ns, mountPath := mount, pathSuffix := suffix }, [ns, mount, suffix], false⟩

def namespaceLookup (ns : GoString) (inherited : Bool) : Lookup :=
  ⟨{ namespacePath := ns }, [ns], inherited⟩

/-- The lookups for a role, a path suffix, its globs from the longest on, a mount, a namespace,
those above it and the root. -/
def lookups (ns mount role suffix : GoString) : List Lookup :=
  [roleLookup ns mount role, pathLookup ns mount suffix] ++
  ((List.range (suffix.length + 1)).map fun i =>
    pathLookup ns mount (suffix.take (suffix.length - i) ++ star)) ++
  [mountLookup ns mount, namespaceLookup ns false] ++
  ((parentNamespaces ns.length (splitAfter (canonicalize ns))).map (namespaceLookup · true)) ++
  if ns = root then [] else [namespaceLookup root false]

def firstFound (rules : List Quota) : List Lookup → Except GoError (Option Quota)
  | [] => .ok none
  | l :: rest =>
    match quotaFetchFunc rules l with
    | .error err => .error err
    | .ok none => firstFound rules rest
    | .ok (some quota) =>
      if l.inherited = true ∧ quota.inheritable = false then firstFound rules rest
      else .ok (some quota)

def queryQuota (rules : List Quota) (req : Request) : Except GoError (Option Quota) :=
  firstFound rules (lookups req.ns req.mountPath req.role req.pathSuffix)

section Parents

variable {ns parent p x : GoString}

def IsParent (parent ns : GoString) : Prop :=
  parent <+: ns ∧ parent ≠ ns ∧ slash <:+ parent

theorem isParent_iff (hx : (47 : UInt8) ∉ x) :
    IsParent parent (p ++ x ++ slash) ↔ parent <+: p ∧ slash <:+ parent := by
  constructor
  · rintro ⟨hpre, hne, hslash⟩
    refine ⟨?_, hslash⟩
    have hshort : parent <+: p ++ x := (List.prefix_concat_iff.mp hpre).resolve_left hne
    rcases List.prefix_or_prefix_of_prefix hshort (List.prefix_append p x) with h | ⟨y, rfl⟩
    · exact h
    -- a longer one would end inside the last name
    rcases List.eq_nil_or_concat' y with rfl | ⟨y, byte, rfl⟩
    · rw [List.append_nil]
    obtain ⟨start, hstart⟩ := hslash
    rw [← List.append_assoc] at hstart
    have hbyte : slash = [byte] := List.append_inj_right' hstart rfl
    have hmem : byte ∈ x :=
      ((List.prefix_append_right_inj p).mp hshort).subset (by simp)
    exact absurd (List.cons.inj hbyte).1 fun heq => hx (heq ▸ hmem)
  · rintro ⟨hpre, hslash⟩
    have hlonger : p <+: p ++ x ++ slash := by
      rw [List.append_assoc]
      exact List.prefix_append p _
    refine ⟨hpre.trans hlonger, fun heq => ?_, hslash⟩
    have hle := hpre.length_le
    rw [heq, List.length_append, List.length_append, slash, List.length_singleton] at hle
    omega

theorem splitAfter_slash (s : GoString) : ∃ init x,
    splitAfter (s ++ slash) = init ++ [x ++ slash, []] ∧ s = init.flatten ++ x ∧
      (47 : UInt8) ∉ x ∧ (init ≠ [] → slash <:+ init.flatten) := by
  induction s with
  | nil => exact ⟨[], [], rfl, rfl, by simp, by simp⟩
  | cons byte s ih =>
    obtain ⟨init, x, hsplit, rfl, hx, hinit⟩ := ih
    by_cases hbyte : byte = 47
    · refine ⟨[byte] :: init, x, ?_, by simp, hx, fun _ => ?_⟩
      · rw [List.cons_append, splitAfter, hsplit]
        cases init with
        | nil | cons part init => exact if_pos hbyte
      · by_cases hempty : init = []
        · rw [hempty, hbyte]
          exact List.suffix_refl slash
        · exact (hinit hempty).trans (List.suffix_cons byte _)
    cases init with
    | nil =>
      refine ⟨[], byte :: x, ?_, rfl, by simp [hx, Ne.symm hbyte], by simp⟩
      rw [List.cons_append, splitAfter, hsplit]
      exact if_neg hbyte
    | cons part init =>
      refine ⟨(byte :: part) :: init, x, ?_, rfl, hx, fun _ => ?_⟩
      · rw [List.cons_append, splitAfter, hsplit]
        exact if_neg hbyte
      · exact (hinit (by simp)).trans (List.suffix_cons byte _)

theorem parentNamespaces_spec {fuel : Nat} (hslash : slash <:+ ns) (hfuel : ns.length ≤ fuel) :
    (∀ parent, parent ∈ parentNamespaces fuel (splitAfter ns) ↔ IsParent parent ns) ∧
      (parentNamespaces fuel (splitAfter ns)).Pairwise fun near far => far.length < near.length := by
  induction fuel generalizing ns with
  | zero =>
    obtain ⟨s, rfl⟩ := hslash
    exact absurd hfuel (by simp [slash])
  | succ fuel ih =>
    obtain ⟨s, rfl⟩ := hslash
    obtain ⟨init, x, hsplit, rfl, hx, hinit⟩ := splitAfter_slash s
    rw [hsplit, parentNamespaces]
    by_cases hempty : init = []
    · rw [if_neg (by simp [hempty])]
      refine ⟨fun parent => ?_, List.Pairwise.nil⟩
      rw [isParent_iff hx, hempty]
      refine iff_of_false (by simp) fun h => ?_
      rw [List.flatten_nil, List.prefix_nil] at h
      exact absurd h.2 (by simp [h.1, slash])
    have htake : (init ++ [x ++ slash, []]).take
        ((init ++ [x ++ slash, []]).length - 2) = init := by simp
    have hlength : 0 < init.length := List.length_pos_iff.mpr hempty
    rw [if_pos (by simpa using hlength), htake]
    obtain ⟨hmem, hsorted⟩ := ih (hinit hempty) (by
      rw [List.length_append, List.length_append, slash, List.length_singleton] at hfuel
      omega)
    refine ⟨fun parent => ?_, List.pairwise_cons.mpr ⟨fun far hfar => ?_, hsorted⟩⟩
    · rw [List.mem_cons, hmem, isParent_iff hx]
      constructor
      · rintro (rfl | ⟨hpre, -, hslash⟩)
        · exact ⟨List.prefix_refl _, hinit hempty⟩
        · exact ⟨hpre, hslash⟩
      rintro ⟨hpre, hslash⟩
      by_cases heq : parent = init.flatten
      · exact .inl heq
      · exact .inr ⟨hpre, heq, hslash⟩
    · obtain ⟨hpre, hne, -⟩ := (hmem far).mp hfar
      exact lt_of_le_of_ne hpre.length_le fun heq => hne (hpre.eq_of_length heq)

end Parents

/-- The scope of a rule covers a request, at a place of the documented order. -/
inductive Applies (ns mount role suffix : GoString) (q : Quota) : Nat → Prop
  | role (hscope : q.toScope = ⟨ns, mount, [], role⟩) (hrole : role ≠ []) :
      Applies ns mount role suffix q 0
  | path (hscope : q.toScope = ⟨ns, mount, suffix, []⟩) (hsuffix : suffix ≠ []) :
      Applies ns mount role suffix q 1
  | glob (start : GoString) (hstart : start <+: suffix)
      (hscope : q.toScope = ⟨ns, mount, start ++ star, []⟩) :
      Applies ns mount role suffix q (2 + (suffix.length - start.length))
  | mount (hscope : q.toScope = ⟨ns, mount, [], []⟩) :
      Applies ns mount role suffix q (3 + suffix.length)
  | inNamespace (hscope : q.toScope = ⟨ns, [], [], []⟩) :
      Applies ns mount role suffix q (4 + suffix.length)
  | inParent (parent : GoString) (hparent : IsParent parent ns)
      (hscope : q.toScope = ⟨parent, [], [], []⟩) (hinheritable : q.inheritable = true) :
      Applies ns mount role suffix q (5 + suffix.length + (ns.length - parent.length))
  | global (hns : ns ≠ root) (hscope : q.toScope = ⟨root, [], [], []⟩) :
      Applies ns mount role suffix q (6 + suffix.length + ns.length)

/-- The rule that is first among those that apply, or none if no rule does. -/
def First (applies : Quota → Nat → Prop) (rules : List Quota) : Option Quota → Prop
  | none => ∀ q ∈ rules, ∀ n, ¬ applies q n
  | some q => q ∈ rules ∧ ∃ n, applies q n ∧
      ∀ q' ∈ rules, ∀ n', applies q' n' → q' = q ∨ n < n'

section Lookups

variable {rules : List Quota}

def Lookup.Counts (l : Lookup) (q : Quota) : Prop :=
  l.finds q = true ∧ (l.inherited = true → q.inheritable = true)

theorem quotaFetchFunc_cases (hrules : (rules.map Quota.toScope).Nodup) (l : Lookup) :
    quotaFetchFunc rules l = .ok none ∧ (∀ q ∈ rules, ¬ l.Counts q) ∨
      ∃ q ∈ rules, quotaFetchFunc rules l = .ok (some q) ∧ l.finds q = true ∧
        ∀ q' ∈ rules, l.Counts q' → q' = q := by
  have hmem : ∀ q, q ∈ rules.filter l.finds ↔ q ∈ rules ∧ l.finds q = true :=
    fun q => List.mem_filter
  have hscope : ∀ q ∈ rules.filter l.finds, q.toScope = l.scope := fun q hq =>
    (of_decide_eq_true ((hmem q).mp hq).2).1
  have hnodup := hrules.sublist ((List.filter_sublist (p := l.finds)).map Quota.toScope)
  rw [quotaFetchFunc]
  rcases hfilter : rules.filter l.finds with _ | ⟨q, _ | ⟨q', rest⟩⟩
  · refine .inl ⟨rfl, fun q hq hcounts => ?_⟩
    have := (hmem q).mpr ⟨hq, hcounts.1⟩
    rw [hfilter] at this
    cases this
  · have hq := (hmem q).mp (by rw [hfilter]; exact List.mem_singleton_self q)
    refine .inr ⟨q, hq.1, rfl, hq.2, fun q' hq' hcounts => ?_⟩
    have := (hmem q').mpr ⟨hq', hcounts.1⟩
    rw [hfilter] at this
    exact List.mem_singleton.mp this
  · rw [hfilter] at hscope hnodup
    have heq := (hscope q (by simp)).trans (hscope q' (by simp)).symm
    simp [heq] at hnodup

theorem firstFound_first (hrules : (rules.map Quota.toScope).Nodup) {placed : List (Nat × Lookup)}
    (hplaced : placed.Pairwise fun l l' => l.1 < l'.1) :
    ∃ c, firstFound rules (placed.map Prod.snd) = .ok c ∧
      First (fun q n => ∃ l, (n, l) ∈ placed ∧ l.Counts q) rules c := by
  induction placed with
  | nil => exact ⟨none, rfl, by simp [First]⟩
  | cons head placed ih =>
    obtain ⟨n, l⟩ := head
    obtain ⟨hhead, hplaced⟩ := List.pairwise_cons.mp hplaced
    obtain ⟨c, hc, hfirst⟩ := ih hplaced
    -- the first lookup may be passed over when no rule counts for it
    have hskip : (∀ q ∈ rules, ¬ l.Counts q) →
        First (fun q m => ∃ l', (m, l') ∈ (n, l) :: placed ∧ l'.Counts q) rules c := by
      intro hnone
      have hiff : ∀ q ∈ rules, ∀ m, (∃ l', (m, l') ∈ (n, l) :: placed ∧ l'.Counts q) ↔
          ∃ l', (m, l') ∈ placed ∧ l'.Counts q := by
        intro q hq m
        refine exists_congr fun l' => and_congr_left fun hcounts => ?_
        rw [List.mem_cons, or_iff_right]
        intro heq
        exact hnone q hq ((Prod.mk.inj heq).2 ▸ hcounts)
      cases c with
      | none => exact fun q hq m => (hiff q hq m).not.mpr (hfirst q hq m)
      | some q =>
        obtain ⟨hq, m, happlies, hless⟩ := hfirst
        refine ⟨hq, m, (hiff q hq m).mpr happlies, fun q' hq' m' happlies' => ?_⟩
        exact hless q' hq' m' ((hiff q' hq' m').mp happlies')
    rw [List.map_cons, firstFound]
    rcases quotaFetchFunc_cases hrules l with ⟨hfetch, hnone⟩ | ⟨q, hq, hfetch, hfinds, hunique⟩
    · rw [hfetch]
      exact ⟨c, hc, hskip hnone⟩
    rw [hfetch]
    by_cases hcounts : l.inherited = true ∧ q.inheritable = false
    · refine ⟨c, (if_pos hcounts).trans hc, hskip fun q' hq' hcounts' => ?_⟩
      have heq := hunique q' hq' hcounts'
      subst heq
      simpa [hcounts.2] using hcounts'.2 hcounts.1
    refine ⟨some q, if_neg hcounts, hq, n, ⟨l, (.head _), hfinds, fun h => ?_⟩, ?_⟩
    · exact Bool.of_not_eq_false fun hfalse => hcounts ⟨h, hfalse⟩
    rintro q' hq' m ⟨l', hl', hcounts'⟩
    rcases List.mem_cons.mp hl' with heq | hmem
    · cases heq
      exact .inl (hunique q' hq' hcounts')
    · exact .inr (hhead _ hmem)

end Lookups

/-- A namespace path as it is passed: of the root, or of another namespace. -/
def Passed (ns : GoString) : Prop :=
  ns = root ∨ slash <:+ ns ∧ ¬ slash <+: ns ∧ ¬ slash ++ slash <:+ ns

section Places

variable {ns mount role suffix : GoString}

theorem not_isParent_root {parent : GoString} : ¬ IsParent parent root := by
  rintro ⟨hpre, -, hslash⟩
  exact absurd (hpre.subset (hslash.subset (List.mem_singleton_self 47))) (by decide)

theorem parentNamespaces_passed (h : Passed ns) :
    (∀ parent, parent ∈ parentNamespaces ns.length (splitAfter (canonicalize ns)) ↔
      IsParent parent ns) ∧
    (parentNamespaces ns.length (splitAfter (canonicalize ns))).Pairwise
      fun near far => far.length < near.length := by
  rcases h with rfl | ⟨hsuffix, hstart, -⟩
  · have hnone : parentNamespaces root.length (splitAfter (canonicalize root)) = [] := by decide
    rw [hnone]
    exact ⟨fun parent => iff_of_false (by simp) not_isParent_root, List.Pairwise.nil⟩
  have hne : ns ≠ [] := by
    rintro rfl
    exact absurd hsuffix (by simp [slash])
  have hcanonical : canonicalize ns = ns := by
    have hpre : hasPrefix ns slash = false :=
      Bool.eq_false_iff.mpr fun h => hstart (hasPrefix_iff.mp h)
    rw [canonicalize, if_neg hne, trimPrefix, hpre]
    exact if_pos (hasSuffix_iff.mpr hsuffix)
  rw [hcanonical]
  exact parentNamespaces_spec hsuffix le_rfl

def placed (ns mount role suffix : GoString) : List (Nat × Lookup) :=
  [(0, roleLookup ns mount role), (1, pathLookup ns mount suffix)] ++
  ((List.range (suffix.length + 1)).map fun i =>
    (2 + i, pathLookup ns mount (suffix.take (suffix.length - i) ++ star))) ++
  [(3 + suffix.length, mountLookup ns mount), (4 + suffix.length, namespaceLookup ns false)] ++
  ((parentNamespaces ns.length (splitAfter (canonicalize ns))).map fun parent =>
    (5 + suffix.length + (ns.length - parent.length), namespaceLookup parent true)) ++
  if ns = root then [] else [(6 + suffix.length + ns.length, namespaceLookup root false)]

theorem map_placed : (placed ns mount role suffix).map Prod.snd = lookups ns mount role suffix := by
  rw [placed, lookups]
  split
  · simp [Function.comp_def]
  · simp [Function.comp_def]

theorem map_fst_placed : (placed ns mount role suffix).map Prod.fst =
    List.range (2 + (suffix.length + 1) + 2) ++
      ((parentNamespaces ns.length (splitAfter (canonicalize ns))).map fun parent =>
        5 + suffix.length + (ns.length - parent.length)) ++
      if ns = root then [] else [6 + suffix.length + ns.length] := by
  have htwo : List.range 2 = [0, 1] := rfl
  have hthree : 2 + (suffix.length + 1) = 3 + suffix.length := by omega
  rw [List.range_add, List.range_add, htwo, hthree, placed]
  split
  · simp [Function.comp_def]
    omega
  · simp [Function.comp_def]
    omega

theorem placed_sorted (h : Passed ns) :
    (placed ns mount role suffix).Pairwise fun l l' => l.1 < l'.1 := by
  obtain ⟨hmem, hsorted⟩ := parentNamespaces_passed h
  have hlength : ∀ parent ∈ parentNamespaces ns.length (splitAfter (canonicalize ns)),
      parent.length ≤ ns.length := fun parent hp => ((hmem parent).mp hp).1.length_le
  rw [← List.pairwise_map, map_fst_placed, List.pairwise_append, List.pairwise_append,
    List.pairwise_map]
  refine ⟨⟨List.pairwise_lt_range, hsorted.imp_of_mem fun hnear _ hless => ?_, ?_⟩, ?_, ?_⟩
  · have := hlength _ hnear
    omega
  · intro i hi n hn
    obtain ⟨parent, -, rfl⟩ := List.mem_map.mp hn
    rw [List.mem_range] at hi
    omega
  · split
    · exact List.Pairwise.nil
    · exact List.pairwise_singleton _ _
  intro i hi n hn
  have hle : i ≤ 5 + suffix.length + ns.length := by
    rcases List.mem_append.mp hi with hi | hi
    · rw [List.mem_range] at hi
      omega
    · obtain ⟨parent, -, rfl⟩ := List.mem_map.mp hi
      omega
  split at hn
  · cases hn
  · rw [List.mem_singleton] at hn
    omega

theorem mem_placed (h : Passed ns) {n : Nat} {l : Lookup} :
    (n, l) ∈ placed ns mount role suffix ↔
      n = 0 ∧ l = roleLookup ns mount role ∨ n = 1 ∧ l = pathLookup ns mount suffix ∨
      (∃ start, start <+: suffix ∧ n = 2 + (suffix.length - start.length) ∧
        l = pathLookup ns mount (start ++ star)) ∨
      n = 3 + suffix.length ∧ l = mountLookup ns mount ∨
      n = 4 + suffix.length ∧ l = namespaceLookup ns false ∨
      (∃ parent, IsParent parent ns ∧ n = 5 + suffix.length + (ns.length - parent.length) ∧
        l = namespaceLookup parent true) ∨
      ns ≠ root ∧ n = 6 + suffix.length + ns.length ∧ l = namespaceLookup root false := by
  have hglobs : (n, l) ∈ ((List.range (suffix.length + 1)).map fun i =>
      (2 + i, pathLookup ns mount (suffix.take (suffix.length - i) ++ star))) ↔
        ∃ start, start <+: suffix ∧ n = 2 + (suffix.length - start.length) ∧
          l = pathLookup ns mount (start ++ star) := by
    simp only [List.mem_map, List.mem_range, Prod.mk.injEq]
    constructor
    · rintro ⟨i, hi, rfl, rfl⟩
      refine ⟨suffix.take (suffix.length - i), List.take_prefix _ _, ?_, rfl⟩
      rw [List.length_take]
      omega
    rintro ⟨start, hstart, rfl, rfl⟩
    have hlength := hstart.length_le
    refine ⟨suffix.length - start.length, by omega, rfl, ?_⟩
    rw [Nat.sub_sub_self hlength, ← List.prefix_iff_eq_take.mp hstart]
  have hglobal : (n, l) ∈ (if ns = root then []
      else [(6 + suffix.length + ns.length, namespaceLookup root false)]) ↔
        ns ≠ root ∧ n = 6 + suffix.length + ns.length ∧ l = namespaceLookup root false := by
    split
    · simp_all
    · simp_all
  rw [placed, List.mem_append, List.mem_append, List.mem_append, List.mem_append, hglobs, hglobal]
  simp only [List.mem_cons, List.mem_map, (parentNamespaces_passed h).1, Prod.mk.injEq,
    List.not_mem_nil, or_false, or_assoc, @eq_comm _ _ n, @eq_comm _ _ l]

theorem counts_iff {l : Lookup} {q : Quota} : l.Counts q ↔
    q.toScope = l.scope ∧ [] ∉ l.indexed ∧ (l.inherited = true → q.inheritable = true) := by
  rw [Lookup.Counts, Lookup.finds, decide_eq_true_iff, and_assoc]

theorem applies_iff (h : Passed ns) (hmount : mount ≠ []) (q : Quota) (n : Nat) :
    Applies ns mount role suffix q n ↔ ∃ l, (n, l) ∈ placed ns mount role suffix ∧ l.Counts q := by
  have hns : ns ≠ [] := by
    rintro rfl
    exact h.elim (by decide) fun hslash => absurd hslash.1 (by simp [slash])
  simp only [mem_placed h, counts_iff]
  constructor
  · intro happlies
    cases happlies with
    | role hscope hrole =>
      exact ⟨_, .inl ⟨rfl, rfl⟩, hscope, by simp_all [roleLookup], by simp [roleLookup]⟩
    | path hscope hsuffix =>
      exact ⟨_, .inr (.inl ⟨rfl, rfl⟩), hscope, by simp_all [pathLookup], by simp [pathLookup]⟩
    | glob start hstart hscope =>
      exact ⟨_, .inr (.inr (.inl ⟨start, hstart, rfl, rfl⟩)), hscope,
        by simp_all [pathLookup, star], by simp [pathLookup]⟩
    | mount hscope =>
      exact ⟨_, .inr (.inr (.inr (.inl ⟨rfl, rfl⟩))), hscope, by simp_all [mountLookup],
        by simp [mountLookup]⟩
    | inNamespace hscope =>
      exact ⟨_, .inr (.inr (.inr (.inr (.inl ⟨rfl, rfl⟩)))), hscope,
        by simp_all [namespaceLookup], by simp [namespaceLookup]⟩
    | inParent parent hparent hscope hinheritable =>
      refine ⟨_, .inr (.inr (.inr (.inr (.inr (.inl ⟨parent, hparent, rfl, rfl⟩))))), hscope, ?_,
        fun _ => hinheritable⟩
      rintro hempty
      rw [namespaceLookup, List.mem_singleton] at hempty
      exact absurd hparent.2.2 (by simp [← hempty, slash])
    | global hroot hscope =>
      exact ⟨_, .inr (.inr (.inr (.inr (.inr (.inr ⟨hroot, rfl, rfl⟩))))), hscope, by decide,
        by simp [namespaceLookup]⟩
  · rintro ⟨l, hplace, hscope, hindexed, hinherited⟩
    rcases hplace with ⟨rfl, rfl⟩ | ⟨rfl, rfl⟩ | ⟨start, hstart, rfl, rfl⟩ | ⟨rfl, rfl⟩ |
      ⟨rfl, rfl⟩ | ⟨parent, hparent, rfl, rfl⟩ | ⟨hroot, rfl, rfl⟩
    · exact .role hscope fun hempty => hindexed (by simp [roleLookup, hempty])
    · exact .path hscope fun hempty => hindexed (by simp [pathLookup, hempty])
    · exact .glob start hstart hscope
    · exact .mount hscope
    · exact .inNamespace hscope
    · exact .inParent parent hparent hscope (hinherited rfl)
    · exact .global hroot hscope

theorem firstFound_lookups {rules : List Quota} (hrules : (rules.map Quota.toScope).Nodup)
    (h : Passed ns) (hmount : mount ≠ []) :
    ∃ c, firstFound rules (lookups ns mount role suffix) = .ok c ∧
      First (Applies ns mount role suffix) rules c := by
  obtain ⟨c, hc, hfirst⟩ := firstFound_first hrules (@placed_sorted ns mount role suffix h)
  rw [map_placed] at hc
  refine ⟨c, hc, ?_⟩
  have happlies : Applies ns mount role suffix =
      fun q n => ∃ l, (n, l) ∈ placed ns mount role suffix ∧ l.Counts q :=
    funext fun q => funext fun n => propext (applies_iff h hmount q n)
  rw [happlies]
  exact hfirst

end Places

def Request.suffix (req : Request) : GoString :=
  trimSuffix (trimPrefix req.path req.mountPath) slash

structure Mounted (req : Request) : Prop where
  ns : Passed req.ns
  mount : slash <:+ req.mountPath
  path : req.mountPath <+: req.path

/-- The path does not start with the name that the namespace is indexed under, unless that is
the mount path and the path does not go on with it, or is all of the path but the slash. -/
def Untouched (req : Request) : Prop :=
  ¬ req.ns <+: req.path ∨
    req.ns = req.mountPath ∧ ¬ req.mountPath ++ req.mountPath <+: req.path ∨
    req.path = req.mountPath ∧ req.mountPath = req.ns ++ slash

section Suffixes

variable {req : Request}

theorem trimPrefix_append (start s : GoString) : trimPrefix (start ++ s) start = s := by
  rw [trimPrefix, if_pos (hasPrefix_iff.mpr (List.prefix_append start s)), List.drop_left]

theorem trimPrefix_of_not {s start : GoString} (h : ¬ start <+: s) : trimPrefix s start = s :=
  if_neg fun hpre => h (hasPrefix_iff.mp hpre)

theorem trimSuffix_cases (s : GoString) :
    s = trimSuffix s slash ++ slash ∨ ¬ slash <:+ s ∧ trimSuffix s slash = s := by
  by_cases h : hasSuffix s slash = true
  · exact .inl (trimSuffix_append h).symm
  · exact .inr ⟨fun hsuffix => h (hasSuffix_iff.mpr hsuffix), if_neg h⟩

theorem Passed.length_lt {ns : GoString} (h : Passed ns) : 1 < ns.length := by
  rcases h with rfl | ⟨⟨s, rfl⟩, hstart, -⟩
  · decide
  · cases s with
    | nil => exact absurd (List.prefix_refl slash) hstart
    | cons byte s => simp [slash]

/-- Two texts one of which is the other with a slash, and which end in the same way. -/
theorem eq_nil_of_append_slash {s t rest : GoString} (h : s ++ rest = t ++ (rest ++ slash))
    (hrest : ¬ slash <:+ rest) : rest = [] := by
  rcases List.eq_nil_or_concat' rest with rfl | ⟨rest, byte, rfl⟩
  · rfl
  · rw [← List.append_assoc, ← List.append_assoc] at h
    have hbyte : [byte] = slash := List.append_inj_right' h rfl
    exact absurd (hbyte ▸ List.suffix_append rest [byte]) hrest

theorem length_trimSuffix (s : GoString) :
    (trimSuffix s slash).length ≤ s.length ∧ s.length ≤ (trimSuffix s slash).length + 1 := by
  rcases trimSuffix_cases s with h | ⟨-, h⟩
  · have hlength := congrArg List.length h
    rw [List.length_append, slash, List.length_singleton] at hlength
    exact ⟨by rw [slash]; omega, by rw [slash]; omega⟩
  · rw [h]
    omega

/-- When the namespace is trimmed and the mount path is not, the same is left only if they are the
same, or differ by the slash that is trimmed too. -/
theorem trimSuffix_eq_iff {ns mount tail rest : GoString} (hns : Passed ns)
    (hmount : slash <:+ mount) (h : ns ++ tail = mount ++ rest) :
    trimSuffix tail slash = trimSuffix rest slash ↔
      ns = mount ∨ rest = [] ∧ mount = ns ++ slash := by
  constructor
  · intro heq
    rcases trimSuffix_cases tail with htail | ⟨htail, htail'⟩
    · rcases trimSuffix_cases rest with hrest | ⟨hrest, hrest'⟩
      · rw [htail, hrest, heq] at h
        exact .inl (List.append_cancel_right h)
      rw [heq, hrest'] at htail
      rw [htail] at h
      have hempty := eq_nil_of_append_slash h.symm hrest
      rw [hempty, List.append_nil] at h
      exact .inr ⟨hempty, h.symm⟩
    rcases trimSuffix_cases rest with hrest | ⟨hrest, hrest'⟩
    · rw [← heq, htail'] at hrest
      rw [hrest] at h
      have hempty := eq_nil_of_append_slash h htail
      rw [hempty, List.append_nil, List.nil_append] at h
      rcases hns with rfl | ⟨-, -, hdouble⟩
      · have hmem : (47 : UInt8) ∈ root := by
          rw [h]
          exact List.mem_append_right mount (List.mem_singleton_self 47)
        exact absurd hmem (by decide)
      · obtain ⟨start, rfl⟩ := hmount
        exact absurd ⟨start, by rw [h, List.append_assoc]⟩ hdouble
    · rw [← htail', heq, hrest'] at h
      exact .inl (List.append_cancel_right h)
  · rintro (rfl | ⟨rfl, rfl⟩)
    · rw [List.append_cancel_left h]
    · rw [List.append_nil] at h
      rw [List.append_cancel_left h]
      decide

theorem pathSuffix_eq_iff (h : Mounted req) : req.pathSuffix = req.suffix ↔ Untouched req := by
  obtain ⟨rest, hrest⟩ := h.path
  have hlength := h.ns.length_lt
  have hsuffix : req.suffix = trimSuffix rest slash := by
    rw [Request.suffix, ← hrest, trimPrefix_append]
  rw [Request.pathSuffix, hsuffix, Untouched]
  by_cases hns : req.ns <+: req.path
  · obtain ⟨tail, htail⟩ := hns
    have htrim : trimPrefix req.path req.ns = tail := by rw [← htail, trimPrefix_append]
    rw [htrim, or_iff_right (not_not.mpr ⟨tail, htail⟩)]
    by_cases hmount : req.mountPath <+: tail
    · obtain ⟨more, rfl⟩ := hmount
      have hlengths := congrArg List.length (hrest.trans htail.symm)
      simp only [List.length_append] at hlengths
      rw [trimPrefix_append]
      refine iff_of_false (fun heq => ?_) ?_
      · have hmore := length_trimSuffix more
        have hrest' := length_trimSuffix rest
        rw [heq] at hmore
        omega
      rintro (⟨heq, hnot⟩ | ⟨heq, -⟩)
      · refine hnot ⟨more, ?_⟩
        rw [← htail, heq, List.append_assoc]
      · have hpath := congrArg List.length (htail.trans heq)
        simp only [List.length_append] at hpath
        omega
    rw [trimPrefix_of_not hmount,
      trimSuffix_eq_iff h.ns h.mount (htail.trans hrest.symm)]
    have hgoes : req.ns = req.mountPath → ¬ req.mountPath ++ req.mountPath <+: req.path := by
      intro heq hgoes
      rw [← htail, heq, List.prefix_append_right_inj] at hgoes
      exact hmount hgoes
    have hwhole : rest = [] ↔ req.path = req.mountPath := by
      rw [← hrest]
      simp
    rw [hwhole]
    exact or_congr_left (iff_self_and.mpr hgoes)
  · rw [trimPrefix_of_not hns, ← hrest, trimPrefix_append]
    exact iff_of_true rfl (.inl (hrest ▸ hns))

def Correct (rules : List Quota) (req : Request) : Prop :=
  ∃ c, queryQuota rules req = .ok c ∧
    First (Applies req.ns req.mountPath req.role req.suffix) rules c

theorem first_singleton {applies : Quota → Nat → Prop} {q : Quota} {c : Option Quota}
    (h : First applies [q] c) : (∃ n, applies q n) ↔ c.isSome := by
  cases c with
  | none => exact iff_of_false (fun ⟨n, hn⟩ => h q (List.mem_singleton_self q) n hn) (by simp)
  | some q' =>
    obtain ⟨hmem, n, hn, -⟩ := h
    rw [List.mem_singleton] at hmem
    exact iff_of_true ⟨n, hmem ▸ hn⟩ rfl

theorem applies_glob_iff {ns mount role suffix start : GoString} (hmount : mount ≠ []) (q : Quota)
    (hq : q.toScope = ⟨ns, mount, start ++ star, []⟩) :
    (∃ n, Applies ns mount role suffix q n) ↔ start <+: suffix := by
  constructor
  · rintro ⟨n, happlies⟩
    cases happlies with
    | path hscope =>
      rw [hq, Scope.mk.injEq] at hscope
      exact hscope.2.2.1 ▸ List.prefix_append start star
    | glob start' hstart hscope =>
      rw [hq, Scope.mk.injEq] at hscope
      exact List.append_cancel_right hscope.2.2.1 ▸ hstart
    | _ => simp_all
  · exact fun hstart => ⟨_, .glob start hstart hq⟩

/-- The first rule is returned whatever rules there are iff trimming the namespace from the path
does no harm. -/
theorem query_first_iff {req : Request} (h : Mounted req) :
    (∀ rules : List Quota, (rules.map Quota.toScope).Nodup → Correct rules req) ↔
      Untouched req := by
  have hmount : req.mountPath ≠ [] := by
    intro hempty
    exact absurd h.mount (by simp [hempty, slash])
  rw [← pathSuffix_eq_iff h]
  constructor
  · intro hcorrect
    -- a rule for a glob is found by the one suffix exactly if it applies to the other
    have hglobs : ∀ start, start <+: req.pathSuffix ↔ start <+: req.suffix := by
      intro start
      obtain ⟨q, hq⟩ : ∃ q : Quota, q.toScope = ⟨req.ns, req.mountPath, start ++ star, []⟩ :=
        ⟨⟨_, [], false⟩, rfl⟩
      have hnodup : ([q].map Quota.toScope).Nodup := List.nodup_singleton _
      obtain ⟨c, hc, hfirst⟩ := hcorrect [q] hnodup
      obtain ⟨c', hc', hfirst'⟩ := @firstFound_lookups req.ns req.mountPath req.role
        req.pathSuffix [q] hnodup h.ns hmount
      rw [queryQuota, hc', Except.ok.injEq] at hc
      rw [← applies_glob_iff hmount q hq, first_singleton hfirst', hc, ← first_singleton hfirst,
        applies_glob_iff hmount q hq]
    exact ((hglobs _).mp (List.prefix_refl _)).eq_of_length_le
      ((hglobs _).mpr (List.prefix_refl _)).length_le
  · intro heq rules hrules
    rw [Correct, ← heq]
    exact firstFound_lookups hrules h.ns hmount

end Suffixes

/-- A request to a mount of the root namespace whose name starts with that of the namespace, and the
rule for exactly its path. -/
def rootRequest : Request :=
  ⟨ofString "rootca/issue", [], [], ofString "rootca/"⟩

def issueRule : Quota :=
  ⟨⟨root, ofString "rootca/", ofString "issue", []⟩, ofString "limit", false⟩

theorem root_mount_escapes_its_limit : Mounted rootRequest ∧ ¬ Correct [issueRule] rootRequest := by
  refine ⟨⟨.inl rfl, ⟨ofString "rootca", by decide⟩, ⟨ofString "issue", by decide⟩⟩, ?_⟩
  rintro ⟨c, hc, hfirst⟩
  have hnone : queryQuota [issueRule] rootRequest = .ok none := rfl
  rw [hnone, Except.ok.injEq] at hc
  subst hc
  exact hfirst issueRule (List.mem_singleton_self _) 1 (.path (by decide) (by decide))

def kvRequest : Request :=
  ⟨ofString "kv/data", [], [], ofString "kv/"⟩

theorem kv_request_finds_the_first_rule :
    Untouched kvRequest ∧
      ∀ rules : List Quota, (rules.map Quota.toScope).Nodup → Correct rules kvRequest := by
  have huntouched : Untouched kvRequest := .inl (by decide)
  refine ⟨huntouched, (query_first_iff ⟨.inl rfl, ?_, ?_⟩).mpr huntouched⟩
  · exact ⟨ofString "kv", by decide⟩
  · exact ⟨ofString "data", by decide⟩

end VaultProofs.QuotaRules
