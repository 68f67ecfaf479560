import VaultProofs.GoStrings
import VaultProofs.LongestPrefixes
import VaultProofs.RacingCalls

/-!
Secrets engines that are mounted, unmounted and remounted in one namespace.
-/

namespace VaultProofs.MountPaths

open GoStrings LongestPrefixes RunHistories RacingCalls

structure MountEntry where
  uuid : Nat
  path : GoString

/-- The router has the paths, that of the namespace in front, and the UUIDs of the entries. -/
structure Core where
  mounts : List MountEntry
  router : List (GoString × Nat)

/-- The next lock region of a call. -/
inductive Call where
  | mount (entry : MountEntry)
  | evaluateFilteredPaths (path : GoString)
  | unmount (path : GoString)
  | taintUnmount (path : GoString)
  | removeMountEntry (path : GoString)
  | routeUnmount (path : GoString)
  | remount (src dst : GoString)
  | taintRemount (src dst : GoString) (uuid : Nat)
  | updateRemount (src dst : GoString) (uuid : Nat)
  | returned

/-- The longest path in the router that starts the given one, if not empty. -/
def matchingMount (c : Core) (path : GoString) : Option GoString :=
  (longestWith (· ∈ c.router.map (·.1)) path).filter (· ≠ [])

def mountConflict (c : Core) (path : GoString) : Option GoString :=
  (matchingMount c path).or (((c.router.map (·.1)).find? (hasPrefix · path)).filter (· ≠ []))

def protectedMounts : List GoString :=
  ["audit/", "auth/", "sys/", "cubbyhole/", "identity/", "agent-registry/"].map ofString

/-- A region, in which writing the mount table, or before it revoking the leases, may fail. -/
def next (ns : GoString) (fails : Bool) (call : Call) (c : Core) : Call × Core :=
  match call with
  | .mount entry =>
    let path := ns ++ entry.path
    if (∃ ent ∈ c.mounts, hasPrefix ent.path entry.path ∨ hasPrefix entry.path ent.path) ∨
        mountConflict c path ≠ none ∨ fails then (.returned, c)
    else
      let c := { c with mounts := c.mounts ++ [entry] }
      if matchingMount c path ≠ none ∨ path = [] then (.returned, c)
      else (.evaluateFilteredPaths entry.path, { c with router := (path, entry.uuid) :: c.router })
  | .evaluateFilteredPaths path => (if fails then .unmount path else .returned, c)
  | .unmount path =>
    (if matchingMount c (ns ++ path) = some (ns ++ path) then .taintUnmount path else .returned, c)
  | .taintUnmount path =>
    (if fails ∨ path ∉ c.mounts.map (·.path) then .returned else .removeMountEntry path, c)
  | .removeMountEntry path =>
    if fails ∨ path ∉ c.mounts.map (·.path) then (.returned, c)
    else (.routeUnmount path, { c with mounts := c.mounts.eraseP (·.path = path) })
  | .routeUnmount path => (.returned, { c with router := c.router.filter (·.1 ≠ ns ++ path) })
  | .remount src dst =>
    match (matchingMount c (ns ++ src)).bind (c.router.lookup ·) with
    | none => (.returned, c)
    | some uuid =>
      if (∃ p ∈ protectedMounts, hasPrefix src p ∨ hasPrefix dst p) ∨
          mountConflict c (ns ++ dst) ≠ none then (.returned, c)
      else (.taintRemount src dst uuid, c)
  | .taintRemount src dst uuid =>
    (if fails ∨ src ∉ c.mounts.map (·.path) then .returned else .updateRemount src dst uuid, c)
  | .updateRemount src dst uuid =>
    if fails ∨ mountConflict c (ns ++ dst) ≠ none then (.returned, c)
    else
      let mounts := c.mounts.map fun e => if e.uuid = uuid then { e with path := dst } else e
      match c.router.lookup (ns ++ src) with
      | none => (.returned, { c with mounts })
      | some uuid => (.returned, ⟨mounts, (ns ++ dst, uuid) :: c.router.filter (·.1 ≠ ns ++ src)⟩)
  | .returned => (call, c)

def Apart (p q : GoString) : Prop := ¬ p <+: q ∧ ¬ q <+: p

structure Disjoint (router : List (GoString × Nat)) : Prop where
  apart : router.Pairwise fun e e' => Apart e.1 e'.1
  nonempty : ∀ e ∈ router, e.1 ≠ []

variable {c : Core} {ns path : GoString} {router : List (GoString × Nat)}

theorem apart_of_mountConflict (hc : Disjoint c.router) (h : mountConflict c path = none) :
    ∀ e ∈ c.router, Apart path e.1 := by
  intro e he
  obtain ⟨hmatching, hprefix⟩ := Option.or_eq_none_iff.mp h
  have hmem : e.1 ∈ c.router.map (·.1) := List.mem_map_of_mem he
  constructor
  · intro hstarts
    cases hfind : (c.router.map (·.1)).find? (hasPrefix · path) with
    | none => exact List.find?_eq_none.mp hfind e.1 hmem (hasPrefix_iff.mpr hstarts)
    | some p =>
      obtain ⟨e', he', rfl⟩ := List.mem_map.mp (List.mem_of_find?_eq_some hfind)
      simp [hfind, hc.nonempty e' he'] at hprefix
  intro hstarts
  rw [matchingMount] at hmatching
  cases hlongest : longestWith (· ∈ c.router.map (·.1)) path with
  | none => exact of_decide_eq_false (longestWith_eq_none hlongest hstarts) hmem
  | some start =>
    have hle := (longestWith_eq_some hlongest).2.2 e.1 hstarts (decide_eq_true hmem)
    have hlong := List.length_pos_of_ne_nil (hc.nonempty e he)
    have hstart : start ≠ [] := List.ne_nil_of_length_pos (by omega)
    simp [hlongest, hstart] at hmatching

theorem Disjoint.insert {uuid : Nat} (h : Disjoint router) (hne : path ≠ [])
    (hnew : ∀ e ∈ router, Apart path e.1) : Disjoint ((path, uuid) :: router) :=
  ⟨List.pairwise_cons.mpr ⟨hnew, h.apart⟩, List.forall_mem_cons.mpr ⟨hne, h.nonempty⟩⟩

theorem Disjoint.filter (h : Disjoint router) (p : GoString × Nat → Bool) :
    Disjoint (router.filter p) :=
  ⟨h.apart.filter p, fun e he => h.nonempty e (List.mem_of_mem_filter he)⟩

theorem Disjoint.next (hc : Disjoint c.router) (fails : Bool) (call : Call) :
    Disjoint (next ns fails call c).2.router := by
  cases call with
  | mount entry =>
    simp only [MountPaths.next]
    split_ifs with hrefused hnested
    · exact hc
    · exact hc
    · push Not at hrefused hnested
      exact hc.insert hnested.2 (apart_of_mountConflict hc hrefused.2.1)
  | updateRemount src dst uuid =>
    simp only [MountPaths.next]
    split_ifs with hrefused
    · exact hc
    split
    · exact hc
    rename_i uuid huuid
    push Not at hrefused
    have hfree := apart_of_mountConflict hc hrefused.2
    refine (hc.filter _).insert (fun hempty => ?_) fun e he => hfree e (List.mem_of_mem_filter he)
    -- the router has the source, and an empty destination would start its path
    obtain ⟨before, after, hrouter, -⟩ := List.lookup_eq_some_iff.mp huuid
    exact (hfree (ns ++ src, uuid) (by simp [hrouter])).1 (hempty ▸ List.nil_prefix)
  | routeUnmount path => exact hc.filter _
  | _ => grind [MountPaths.next]

theorem Disjoint.matches_one (h : Disjoint router) (request : GoString) :
    (router.filter (hasPrefix request ·.1)).length ≤ 1 := by
  have hpairs := h.apart.filter (hasPrefix request ·.1)
  have hstarts : ∀ e ∈ router.filter (hasPrefix request ·.1), e.1 <+: request :=
    fun e he => hasPrefix_iff.mp (List.mem_filter.mp he).2
  rcases hfound : router.filter (hasPrefix request ·.1) with _ | ⟨e, _ | ⟨e', rest⟩⟩
  · simp [hfound]
  · simp [hfound]
  rw [hfound] at hpairs hstarts
  have hapart := List.rel_of_pairwise_cons hpairs (.head _)
  have hnested := List.prefix_or_prefix_of_prefix (hstarts e (by simp)) (hstarts e' (by simp))
  exact (hnested.elim hapart.1 hapart.2).elim

/-- No path in the router starts another one, and a request matches at most one of them. -/
theorem mounts_never_overlap {s s' : Race Core Call} {history : List (Nat × Bool)}
    (hs : Disjoint s.store.router) (hs' : final (turn (next ns)) s history = s') :
    s'.store.router.Pairwise (fun e e' => Apart e.1 e'.1) ∧
      ∀ request, (s'.store.router.filter (hasPrefix request ·.1)).length ≤ 1 := by
  have hend : Disjoint s'.store.router := by
    let K (s : Race Core Call) := Disjoint s.store.router
    rw [← hs']
    refine final_induction (K := fun _ => K) hs (fun _ e h => ?_) history
    exact turn_keeps (K := K) (fun call _ => h.next e.2 call) h
  exact ⟨hend.apart, hend.matches_one⟩

def twoMounts : Race Core Call :=
  final (turn (next [])) ⟨⟨[], []⟩, [.mount ⟨0, [1]⟩, .mount ⟨1, [1, 2]⟩]⟩ [(0, false), (1, false)]

theorem second_mount_refused : twoMounts.store.router.Pairwise (fun e e' => Apart e.1 e'.1) ∧
    ∀ request, (twoMounts.store.router.filter (hasPrefix request ·.1)).length ≤ 1 :=
  mounts_never_overlap ⟨List.Pairwise.nil, by simp⟩ rfl

end VaultProofs.MountPaths
