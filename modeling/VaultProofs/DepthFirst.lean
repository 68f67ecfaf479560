import Mathlib.Data.List.Nodup
import Mathlib.Logic.Relation

/-!
Depth first search with seen keys shared between starts. Links may be missing; a broken one ends the
search.
-/

namespace VaultProofs.DepthFirst

variable {ν κ σ τ ε : Type}

/-- Follow links one after the other; an error of a visit is relayed, and there is no result where a
visit runs out of fuel. -/
def follow (visit : ν → τ → Option (Except ε τ)) (relay : ν → ε → ε) :
    List (Except ε (Option ν)) → τ → Option (Except ε τ)
  | [], st => some (.ok st)
  | .error e :: _, _ => some (.error e)
  | .ok none :: links, st => follow visit relay links st
  | .ok (some y) :: links, st =>
    match visit y st with
    | none => none
    | some (.error e) => some (.error (relay y e))
    | some (.ok st) => follow visit relay links st

/-- Visit a node and what it links to, unless its key has been seen. -/
def walk [DecidableEq κ] (key : ν → κ) (links : ν → List (Except ε (Option ν)))
    (relay : ν → ε → ε) (note : σ → ν → σ) :
    Nat → ν → List κ × σ → Option (Except ε (List κ × σ))
  | 0, _, _ => none
  | fuel + 1, x, (seen, s) =>
    if key x ∈ seen then some (.ok (seen, s))
    else follow (walk key links relay note fuel) relay (links x) (key x :: seen, note s x)

def Reaches (links : ν → List (Except ε (Option ν))) : ν → ν → Prop :=
  Relation.ReflTransGen fun x y => .ok (some y) ∈ links x

/-- The search from the roots has added the nodes `vs` to what was seen. -/
structure Visited (key : ν → κ) (links : ν → List (Except ε (Option ν))) (note : σ → ν → σ)
    (roots : List ν) (vs : List ν) (st st' : List κ × σ) : Prop where
  seen : ∀ k, k ∈ st'.1 ↔ k ∈ st.1 ∨ ∃ v ∈ vs, key v = k
  noted : st'.2 = vs.foldl note st.2
  nodup : (vs.map key).Nodup
  fresh : ∀ v ∈ vs, key v ∉ st.1
  reached : ∀ v ∈ vs, ∃ root ∈ roots, Reaches links root v
  rooted : ∀ root ∈ roots, key root ∈ st'.1
  closed : ∀ v ∈ vs, ∀ link ∈ links v,
    link = .ok none ∨ ∃ y, link = .ok (some y) ∧ key y ∈ st'.1

variable {key : ν → κ} {links : ν → List (Except ε (Option ν))} {note : σ → ν → σ}
  {roots roots' vs vs' : List ν} {st st₁ st₂ : List κ × σ}

theorem visited_nothing (h : ∀ root ∈ roots, key root ∈ st.1) :
    Visited key links note roots [] st st :=
  ⟨by simp, rfl, List.nodup_nil, nofun, nofun, h, nofun⟩

theorem Visited.mono (h : Visited key links note roots vs st st₁) {k : κ} (hk : k ∈ st.1) :
    k ∈ st₁.1 :=
  (h.seen k).mpr (.inl hk)

theorem Visited.trans (h : Visited key links note roots vs st st₁)
    (h' : Visited key links note roots' vs' st₁ st₂) :
    Visited key links note (roots ++ roots') (vs ++ vs') st st₂ where
  seen k := by
    rw [h'.seen, h.seen, or_assoc]
    simp only [List.mem_append, or_and_right, exists_or]
  noted := by rw [h'.noted, h.noted, List.foldl_append]
  nodup := by
    rw [List.map_append]
    refine List.nodup_append.mpr ⟨h.nodup, h'.nodup, fun k hk k' hk' => ?_⟩
    rintro rfl
    obtain ⟨v, hv, rfl⟩ := List.mem_map.mp hk
    obtain ⟨v', hv', heq⟩ := List.mem_map.mp hk'
    exact h'.fresh v' hv' ((h.seen _).mpr (.inr ⟨v, hv, heq.symm⟩))
  fresh v hv := by
    rcases List.mem_append.mp hv with hv | hv
    · exact h.fresh v hv
    · exact fun hseen => h'.fresh v hv (h.mono hseen)
  reached v hv := by
    rcases List.mem_append.mp hv with hv | hv
    · obtain ⟨root, hroot, hreaches⟩ := h.reached v hv
      exact ⟨root, List.mem_append_left _ hroot, hreaches⟩
    · obtain ⟨root, hroot, hreaches⟩ := h'.reached v hv
      exact ⟨root, List.mem_append_right _ hroot, hreaches⟩
  rooted root hroot := by
    rcases List.mem_append.mp hroot with hroot | hroot
    · exact h'.mono (h.rooted root hroot)
    · exact h'.rooted root hroot
  closed v hv link hlink := by
    rcases List.mem_append.mp hv with hv | hv
    · refine (h.closed v hv link hlink).imp_right ?_
      rintro ⟨y, hy, hseen⟩
      exact ⟨y, hy, h'.mono hseen⟩
    · exact h'.closed v hv link hlink

def targets (ls : List (Except ε (Option ν))) : List ν :=
  ls.filterMap fun
    | .ok target => target
    | .error _ => none

variable {ls : List (Except ε (Option ν))}

theorem mem_targets {y : ν} : y ∈ targets ls ↔ .ok (some y) ∈ ls := by
  rw [targets, List.mem_filterMap]
  constructor
  · rintro ⟨link, hlink, hy⟩
    match link, hy with
    | .ok (some _), rfl => exact hlink
  · intro hlink
    exact ⟨_, hlink, rfl⟩

variable {relay : ν → ε → ε}

theorem follow_ok {visit : ν → List κ × σ → Option (Except ε (List κ × σ))}
    (hvisit : ∀ y st st', visit y st = some (.ok st') →
      ∃ vs, Visited key links note [y] vs st st') (h : follow visit relay ls st = some (.ok st₁)) :
    (∃ vs, Visited key links note (targets ls) vs st st₁) ∧
      ∀ link ∈ ls, link = .ok none ∨ ∃ y, link = .ok (some y) := by
  induction ls generalizing st with
  | nil =>
    obtain rfl := Except.ok.inj (Option.some.inj h)
    exact ⟨⟨[], visited_nothing nofun⟩, nofun⟩
  | cons link ls ih =>
    match link with
    | .error e => exact nomatch Option.some.inj h
    | .ok none =>
      obtain ⟨hvs, hlinks⟩ := ih h
      exact ⟨hvs, List.forall_mem_cons.mpr ⟨.inl rfl, hlinks⟩⟩
    | .ok (some y) =>
      rw [follow] at h
      cases hy : visit y st with
      | none =>
        rw [hy] at h
        exact nomatch h
      | some result =>
        cases result with
        | error e =>
          rw [hy] at h
          exact nomatch Option.some.inj h
        | ok st' =>
          rw [hy] at h
          obtain ⟨vs, hvs⟩ := hvisit y st st' hy
          obtain ⟨⟨vs', hvs'⟩, hlinks⟩ := ih h
          exact ⟨⟨vs ++ vs', hvs.trans hvs'⟩,
            List.forall_mem_cons.mpr ⟨.inr ⟨y, rfl⟩, hlinks⟩⟩

theorem follow_error {visit : ν → τ → Option (Except ε τ)} {s : τ} {e : ε}
    (h : follow visit relay ls s = some (.error e)) :
    (∃ e', .error e' ∈ ls) ∨ ∃ y s' e', .ok (some y) ∈ ls ∧ visit y s' = some (.error e') := by
  induction ls generalizing s with
  | nil => exact nomatch Option.some.inj h
  | cons link ls ih =>
    have later : ∀ {s}, follow visit relay ls s = some (.error e) →
        (∃ e', .error e' ∈ link :: ls) ∨
          ∃ y s' e', .ok (some y) ∈ link :: ls ∧ visit y s' = some (.error e') := by
      intro s hrest
      rcases ih hrest with ⟨e', he'⟩ | ⟨y, s', e', hy, hvisit⟩
      · exact .inl ⟨e', .tail _ he'⟩
      · exact .inr ⟨y, s', e', .tail _ hy, hvisit⟩
    rcases link with e' | _ | y
    · exact .inl ⟨e', (.head _)⟩
    · exact later h
    rw [follow] at h
    cases hy : visit y s with
    | none =>
      rw [hy] at h
      exact nomatch h
    | some result =>
      cases result with
      | error e' => exact .inr ⟨y, s, e', (.head _), hy⟩
      | ok s' =>
        rw [hy] at h
        exact later h

theorem follow_ends {visit : ν → τ → Option (Except ε τ)} (ready : τ → Prop) {s : τ} (hs : ready s)
    (hvisit : ∀ y, .ok (some y) ∈ ls → ∀ s, ready s → visit y s ≠ none)
    (hready : ∀ y s s', ready s → visit y s = some (.ok s') → ready s') :
    follow visit relay ls s ≠ none := by
  induction ls generalizing s with
  | nil => exact nofun
  | cons link ls ih =>
    have hlater : ∀ y, .ok (some y) ∈ ls → ∀ s, ready s → visit y s ≠ none :=
      fun y hy => hvisit y (.tail _ hy)
    match link with
    | .error e => exact nofun
    | .ok none => exact ih hs hlater
    | .ok (some y) =>
      rw [follow]
      cases hy : visit y s with
      | none => exact absurd hy (hvisit y List.mem_cons_self s hs)
      | some result =>
        cases result with
        | error e => exact nofun
        | ok s' => exact ih (hready y s s' hs hy) hlater

section Walks

variable [DecidableEq κ] {x : ν} {st' : List κ × σ} {fuel : Nat}

theorem walk_ok (h : walk key links relay note fuel x st = some (.ok st')) :
    ∃ vs, Visited key links note [x] vs st st' := by
  induction fuel generalizing x st st' with
  | zero => exact nomatch h
  | succ fuel ih =>
    obtain ⟨seen, s⟩ := st
    rw [walk] at h
    by_cases hseen : key x ∈ seen
    · rw [if_pos hseen] at h
      obtain rfl := Except.ok.inj (Option.some.inj h)
      refine ⟨[], visited_nothing ?_⟩
      rintro root hroot
      rw [List.mem_singleton.mp hroot]
      exact hseen
    rw [if_neg hseen] at h
    obtain ⟨⟨vs, hvs⟩, hlinks⟩ := follow_ok (fun y st st' => ih) h
    refine ⟨x :: vs, ?_, ?_, ?_, ?_, ?_, ?_, ?_⟩
    · intro k
      rw [hvs.seen, List.mem_cons]
      simp only [List.exists_mem_cons_iff]
      rw [← or_assoc, or_comm (a := k ∈ seen), eq_comm]
    · rw [hvs.noted]
      rfl
    · rw [List.map_cons, List.nodup_cons]
      refine ⟨fun hmem => ?_, hvs.nodup⟩
      obtain ⟨v, hv, heq⟩ := List.mem_map.mp hmem
      exact hvs.fresh v hv (heq ▸ (.head _))
    · intro v hv
      rcases List.mem_cons.mp hv with rfl | hv
      · exact hseen
      · exact fun hin => hvs.fresh v hv (.tail _ hin)
    · intro v hv
      refine ⟨x, List.mem_singleton_self x, ?_⟩
      rcases List.mem_cons.mp hv with rfl | hv
      · exact .refl
      · obtain ⟨y, hy, hreaches⟩ := hvs.reached v hv
        exact .head (mem_targets.mp hy) hreaches
    · intro root hroot
      rw [List.mem_singleton.mp hroot]
      exact hvs.mono (.head _)
    intro v hv link hlink
    rcases List.mem_cons.mp hv with rfl | hv
    · refine (hlinks link hlink).imp_right ?_
      rintro ⟨y, rfl⟩
      exact ⟨y, rfl, hvs.rooted y (mem_targets.mpr hlink)⟩
    · exact hvs.closed v hv link hlink

theorem walk_error {e : ε} (h : walk key links relay note fuel x st = some (.error e)) :
    ∃ v e', Reaches links x v ∧ .error e' ∈ links v := by
  induction fuel generalizing x st e with
  | zero => exact nomatch h
  | succ fuel ih =>
    obtain ⟨seen, s⟩ := st
    rw [walk] at h
    by_cases hseen : key x ∈ seen
    · rw [if_pos hseen] at h
      exact nomatch Option.some.inj h
    rw [if_neg hseen] at h
    rcases follow_error h with ⟨e', he'⟩ | ⟨y, st, e', hy, hvisit⟩
    · exact ⟨x, e', .refl, he'⟩
    · obtain ⟨v, e', hreaches, he'⟩ := ih hvisit
      exact ⟨v, e', .head hy hreaches, he'⟩

def unseen (keys : List κ) (st : List κ × σ) : Nat :=
  (keys.filter (· ∉ st.1)).length

theorem unseen_le_of_subset (keys : List κ) (h : ∀ k ∈ st.1, k ∈ st'.1) :
    unseen keys st' ≤ unseen keys st := by
  refine List.Sublist.length_le (List.monotone_filter_right keys fun k hk => ?_)
  simp only [decide_eq_true_eq] at hk ⊢
  exact fun hin => hk (h k hin)

theorem unseen_cons_lt {keys : List κ} {seen : List κ} {k : κ} (hk : k ∈ keys)
    (hseen : k ∉ seen) (s s' : σ) : unseen keys (k :: seen, s') < unseen keys (seen, s) := by
  have hfilter : keys.filter (· ∉ k :: seen) = (keys.filter (· ∉ seen)).filter (· ≠ k) := by
    rw [List.filter_filter]
    refine List.filter_congr fun other _ => ?_
    simp [not_or]
  rw [unseen, unseen, hfilter, List.length_filter_lt_length_iff_exists]
  exact ⟨k, List.mem_filter.mpr ⟨hk, by simpa using hseen⟩, by simp⟩

theorem walk_ends (keys : List κ) (hkeys : ∀ v, Reaches links x v → key v ∈ keys)
    (hfuel : unseen keys st < fuel) : walk key links relay note fuel x st ≠ none := by
  induction fuel generalizing x st with
  | zero => exact nomatch hfuel
  | succ fuel ih =>
    obtain ⟨seen, s⟩ := st
    rw [walk]
    by_cases hseen : key x ∈ seen
    · rw [if_pos hseen]
      exact nofun
    rw [if_neg hseen]
    have hless := unseen_cons_lt (hkeys x .refl) hseen s (note s x)
    refine follow_ends (fun st => unseen keys st < fuel) (by omega) ?_ ?_
    · exact fun y hy st hst => ih (fun v hv => hkeys v (.head hy hv)) hst
    · intro y st st' hst hvisit
      obtain ⟨vs, hvs⟩ := walk_ok hvisit
      exact Nat.lt_of_le_of_lt (unseen_le_of_subset keys fun k => hvs.mono) hst

end Walks

variable {s : σ} {st' : List κ × σ}

theorem Visited.mem_iff (h : Visited key links note roots vs ([], s) st') (valid : ν → Prop)
    (hroots : ∀ root ∈ roots, valid root)
    (hlinks : ∀ v, valid v → ∀ y, .ok (some y) ∈ links v → valid y)
    (hkey : ∀ v v', valid v → valid v' → key v = key v' → v = v') {v : ν} :
    v ∈ vs ↔ ∃ root ∈ roots, Reaches links root v := by
  have hvalid : ∀ {root v}, root ∈ roots → Reaches links root v → valid v := by
    intro root v hroot hreaches
    induction hreaches with
    | refl => exact hroots root hroot
    | tail _ hlink ih => exact hlinks _ ih _ hlink
  -- a seen key belongs to a visited node, and that is the node in question
  have hfound : ∀ {v}, valid v → key v ∈ st'.1 → v ∈ vs := by
    intro v hv hseen
    rcases (h.seen (key v)).mp hseen with hin | ⟨v', hv', heq⟩
    · exact nomatch hin
    · obtain ⟨root, hroot, hreaches⟩ := h.reached v' hv'
      rw [← hkey v' v (hvalid hroot hreaches) hv heq]
      exact hv'
  refine ⟨h.reached v, ?_⟩
  rintro ⟨root, hroot, hreaches⟩
  induction hreaches with
  | refl => exact hfound (hroots root hroot) (h.rooted root hroot)
  | tail hbefore hlink ih =>
    rcases h.closed _ ih _ hlink with hnone | ⟨y, hy, hseen⟩
    · exact nomatch Except.ok.inj hnone
    · obtain rfl := Option.some.inj (Except.ok.inj hy)
      exact hfound (hlinks _ (hvalid hroot hbefore) _ hlink) hseen

theorem Visited.sound (h : Visited key links note roots vs ([], s) st') {v : ν} (hv : v ∈ vs)
    (e : ε) : .error e ∉ links v := by
  intro hlink
  rcases h.closed v hv _ hlink with hnone | ⟨y, hy, -⟩
  · exact nomatch hnone
  · exact nomatch hy

end VaultProofs.DepthFirst
