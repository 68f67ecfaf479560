import Mathlib.Data.List.Basic
import Mathlib.Logic.Relation
import Mathlib.Tactic.Common

/-!
Depth-first walks over a finite graph that loses edges meanwhile. The walk keeps an explicit stack
and the nodes ever on its top. A node is passed once no edge leads from it to an unseen node; one
with unseen targets stays below them. Nodes may stand on the stack more than once.
-/

namespace VaultProofs.StackWalks

inductive Event (ν : Type) where
  | visit (x : ν)
  | pass (x : ν)
  deriving DecidableEq

/-- The top of the stack comes first, and so does the latest event. -/
structure Walk (ν : Type) where
  stack : List ν
  seen : List ν
  edges : List (ν × ν)
  events : List (Event ν)

variable {ν : Type}

def Reachable (edges : List (ν × ν)) : ν → ν → Prop :=
  Relation.ReflTransGen fun x y => (x, y) ∈ edges

theorem Reachable.mono {edges edges' : List (ν × ν)} (hsub : edges ⊆ edges') {x y : ν}
    (h : Reachable edges x y) : Reachable edges' x y :=
  Relation.ReflTransGen.mono (fun _ _ hedge => hsub hedge) x y h

/-- `c` was visited before `t` was visited for the first time. -/
def Earlier (events : List (Event ν)) (c t : ν) : Prop :=
  ∃ newer older, events = newer ++ .visit c :: older ∧ .visit t ∉ older

/-- A node was passed only after the targets of its edges, those apart that had been visited before
it. -/
def Ordered (edges : List (ν × ν)) (events : List (Event ν)) : Prop :=
  ∀ newer t older c, events = newer ++ .pass t :: older → (t, c) ∈ edges →
    .pass c ∈ older ∨ Earlier older c t

variable {events : List (Event ν)}

theorem Earlier.append {c t : ν} (h : Earlier events c t) (fresh : List (Event ν)) :
    Earlier (fresh ++ events) c t := by
  obtain ⟨newer, older, rfl, hold⟩ := h
  exact ⟨fresh ++ newer, older, (List.append_assoc ..).symm, hold⟩

theorem earlier_self {t : ν} (h : .visit t ∈ events) : Earlier events t t := by
  induction events with
  | nil => cases h
  | cons event older ih =>
    by_cases hold : .visit t ∈ older
    · exact (ih hold).append [event]
    · obtain rfl : event = .visit t := (List.mem_cons.mp h).resolve_right hold |>.symm
      exact ⟨[], older, rfl, hold⟩

theorem earlier_of_unvisited {c t : ν} (hc : .visit c ∈ events) (ht : .visit t ∉ events) :
    Earlier events c t := by
  obtain ⟨newer, older, rfl⟩ := List.append_of_mem hc
  refine ⟨newer, older, rfl, ?_⟩
  intro hold
  exact ht (List.mem_append_right _ (.tail _ hold))

variable {edges : List (ν × ν)}

theorem Ordered.visit (h : Ordered edges events) (x : ν) : Ordered edges (.visit x :: events) := by
  intro newer t older c hsplit
  cases newer with
  | nil => cases hsplit
  | cons event newer =>
    obtain ⟨-, hsplit⟩ := List.cons_eq_cons.mp hsplit
    exact h newer t older c hsplit

variable {x : ν}

section

variable (h : Ordered edges events)
  (hx : ∀ c, (x, c) ∈ edges → .pass c ∈ events ∨ Earlier events c x)

include h hx

theorem Ordered.pass : Ordered edges (.pass x :: events) := by
  intro newer t older c hsplit hedge
  cases newer with
  | nil =>
    obtain ⟨hevent, rfl⟩ := List.cons_eq_cons.mp hsplit
    cases hevent
    exact hx c hedge
  | cons event newer =>
    obtain ⟨-, hsplit⟩ := List.cons_eq_cons.mp hsplit
    exact h newer t older c hsplit hedge

theorem Ordered.about {fresh : List (Event ν)}
    (hfresh : ∀ event ∈ fresh, event = .visit x ∨ event = .pass x) :
    Ordered edges (fresh ++ events) := by
  induction fresh with
  | nil => exact h
  | cons event fresh ih =>
    have hrest := ih fun event hevent => hfresh event (.tail _ hevent)
    rcases hfresh event List.mem_cons_self with rfl | rfl
    · exact hrest.visit x
    refine hrest.pass fun c hc => ?_
    rcases hx c hc with hpass | hearlier
    · exact .inl (List.mem_append_right _ hpass)
    · exact .inr (hearlier.append fresh)

end

theorem Ordered.again (h : Ordered edges events) {fresh : List (Event ν)}
    (hfresh : ∀ x, .pass x ∈ fresh → .pass x ∈ events) :
    Ordered edges (fresh ++ events) := by
  induction fresh with
  | nil => exact h
  | cons event fresh ih =>
    have hrest := ih fun x hx => hfresh x (.tail _ hx)
    cases event with
    | visit x => exact hrest.visit x
    | pass x =>
      refine hrest.pass fun c hc => ?_
      obtain ⟨newer, older, hsplit⟩ := List.append_of_mem (hfresh x (.head _))
      rcases h newer x older c hsplit hc with hpass | hearlier
      · left
        rw [hsplit]
        exact List.mem_append_right _
          (List.mem_append_right _ (.tail _ hpass))
      right
      have := hearlier.append (fresh ++ newer ++ [.pass x])
      rw [hsplit]
      simpa using this

/-- What a walk from `start` over `edges₀` keeps. -/
structure Inv (edges₀ : List (ν × ν)) (start : ν) (w : Walk ν) : Prop where
  edges_sub : w.edges.Sublist edges₀
  removed : ∀ e ∈ edges₀, e ∉ w.edges → e.2 ∈ w.seen
  seen_iff : ∀ x, x ∈ w.seen ↔ .visit x ∈ w.events
  open_or_passed : ∀ x ∈ w.seen, x ∈ w.stack ∨ .pass x ∈ w.events
  passed_seen : ∀ x, .pass x ∈ w.events → x ∈ w.seen
  passed_closed : ∀ x, .pass x ∈ w.events → ∀ c, (x, c) ∈ edges₀ → c ∈ w.seen
  started : start ∈ w.stack ∨ .pass start ∈ w.events
  reachable : ∀ x, x ∈ w.stack ∨ x ∈ w.seen → Reachable edges₀ start x
  pending : ∀ upper x lower, w.stack = upper ++ x :: lower → x ∈ w.seen →
    ∀ c, (x, c) ∈ w.edges → c ∈ w.seen ∨ c ∈ upper
  layered : ∀ upper t lower, w.stack = upper ++ t :: lower → t ∈ w.seen →
    ∀ c ∈ lower, c ∈ w.seen → .pass c ∉ w.events → c ∉ upper → Earlier w.events c t
  ordered : Ordered edges₀ w.events

theorem inv_start (edges₀ : List (ν × ν)) (start : ν) :
    Inv edges₀ start ⟨[start], [], edges₀, []⟩ where
  edges_sub := List.Sublist.refl _
  removed e he hgone := absurd he hgone
  seen_iff x := by simp
  open_or_passed x hx := by cases hx
  passed_seen x hx := by cases hx
  passed_closed x hx := by cases hx
  started := .inl (.head _)
  reachable x hx := by
    obtain rfl : x = start := by simpa using hx
    exact Relation.ReflTransGen.refl
  pending upper x lower hsplit hx := by cases hx
  layered upper t lower hsplit ht := by cases ht
  ordered newer t older c h := by simp at h

variable {edges₀ : List (ν × ν)} {start : ν}

theorem Inv.all_passed {w : Walk ν} (h : Inv edges₀ start w) (hend : w.stack = [])
    (hx : Reachable edges₀ start x) : .pass x ∈ w.events := by
  induction hx with
  | refl =>
    have hstart := h.started
    rw [hend] at hstart
    exact hstart.resolve_left (by simp)
  | tail _ hedge ih =>
    have hopen := h.open_or_passed _ (h.passed_closed _ ih _ hedge)
    rw [hend] at hopen
    exact hopen.resolve_left (by simp)

variable [DecidableEq ν]

def targets (edges : List (ν × ν)) (x : ν) : List ν :=
  (edges.filter fun e => e.1 = x).map Prod.snd

def unseen (edges : List (ν × ν)) (seen : List ν) (x : ν) : List ν :=
  (targets edges x).filter fun c => c ∉ seen

@[simp] theorem mem_targets {x c : ν} : c ∈ targets edges x ↔ (x, c) ∈ edges := by
  simp [targets]

theorem mem_unseen {seen : List ν} {x c : ν} :
    c ∈ unseen edges seen x ↔ (x, c) ∈ edges ∧ c ∉ seen := by
  simp [unseen]

/-- One round of the walk. Whoever passes a node may drop edges that lead to it. -/
inductive Step : Walk ν → Walk ν → Prop where
  | expand {x : ν} {rest seen : List ν} {edges kept : List (ν × ν)} {events : List (Event ν)}
      (hunseen : unseen edges (x :: seen) x ≠ []) (hsub : kept.Sublist edges)
      (hkept : ∀ e ∈ edges, e ∉ kept → e.1 = x ∧ e.2 ∈ x :: seen) :
      Step ⟨x :: rest, seen, edges, events⟩
        ⟨(unseen edges (x :: seen) x).reverse ++ x :: rest, x :: seen, kept, .visit x :: events⟩
  | leave {x : ν} {rest seen : List ν} {edges kept : List (ν × ν)} {events fresh : List (Event ν)}
      (hunseen : unseen edges (x :: seen) x = []) (hsub : kept.Sublist edges)
      (hkept : ∀ e ∈ edges, e ∉ kept → e.1 = x ∨ e.2 = x)
      (hfresh : ∀ event ∈ fresh, event = .visit x ∨ event = .pass x) :
      Step ⟨x :: rest, seen, edges, events⟩
        ⟨rest, x :: seen, kept, fresh ++ .pass x :: .visit x :: events⟩

variable {rest seen : List ν} {kept : List (ν × ν)} {fresh : List (Event ν)}

section

variable (h : Inv edges₀ start ⟨x :: rest, seen, edges, events⟩)

include h

theorem Inv.not_seen_of_unseen (hunseen : unseen edges (x :: seen) x ≠ []) : x ∉ seen := by
  intro hx
  obtain ⟨c, hc⟩ := List.exists_mem_of_ne_nil _ hunseen
  obtain ⟨hedge, hfresh⟩ := mem_unseen.mp hc
  rcases h.pending [] x rest rfl hx c hedge with hseen | hnil
  · exact hfresh (.tail _ hseen)
  · cases hnil

theorem Inv.earlier_than_top {c : ν} (hc : c ∈ x :: seen) :
    .pass c ∈ Event.visit x :: events ∨ Earlier (.visit x :: events) c x := by
  by_cases hcx : c = x
  · subst hcx
    exact .inr (earlier_self (.head _))
  have hcseen : c ∈ seen := (List.mem_cons.mp hc).resolve_left hcx
  by_cases hpassed : Event.pass c ∈ events
  · exact .inl (.tail _ hpassed)
  have hcrest : c ∈ rest := by
    have hopen := (h.open_or_passed c hcseen).resolve_right hpassed
    exact (List.mem_cons.mp hopen).resolve_left hcx
  right
  by_cases hx : x ∈ seen
  · have hearlier := h.layered [] x rest rfl hx c hcrest hcseen hpassed (by simp)
    exact hearlier.append [.visit x]
  · have hunvisited : Event.visit x ∉ events := fun hvisit => hx ((h.seen_iff x).mpr hvisit)
    exact (earlier_of_unvisited ((h.seen_iff c).mp hcseen) hunvisited).append [.visit x]

theorem Inv.expand (hunseen : unseen edges (x :: seen) x ≠ []) (hsub : kept.Sublist edges)
    (hkept : ∀ e ∈ edges, e ∉ kept → e.1 = x ∧ e.2 ∈ x :: seen) :
    Inv edges₀ start ⟨(unseen edges (x :: seen) x).reverse ++ x :: rest, x :: seen, kept,
      .visit x :: events⟩ := by
  have hxnew : x ∉ seen := h.not_seen_of_unseen hunseen
  have hunvisited : Event.visit x ∉ events := fun hvisit => hxnew ((h.seen_iff x).mpr hvisit)
  -- A position of a seen node is not among the nodes just pushed.
  have hbelow : ∀ upper t lower,
      (unseen edges (x :: seen) x).reverse ++ x :: rest = upper ++ t :: lower → t ∈ x :: seen →
      ∃ upper', x :: rest = upper' ++ t :: lower ∧
        upper = (unseen edges (x :: seen) x).reverse ++ upper' := by
    intro upper t lower hsplit ht
    rcases List.append_eq_append_iff.mp hsplit with ⟨upper', hupper, hrest⟩ | ⟨mid, hmid, hrest⟩
    · exact ⟨upper', hrest, hupper⟩
    cases mid with
    | nil =>
      refine ⟨[], hrest.symm, ?_⟩
      simpa using hmid.symm
    | cons t' mid =>
      obtain ⟨rfl, -⟩ := List.cons_eq_cons.mp hrest
      have hmem : t ∈ (unseen edges (x :: seen) x).reverse := by
        rw [hmid]
        simp
      exact absurd ht (mem_unseen.mp (List.mem_reverse.mp hmem)).2
  refine ⟨?_, ?_, ?_, ?_, ?_, ?_, ?_, ?_, ?_, ?_, h.ordered.visit x⟩
  · exact hsub.trans h.edges_sub
  · intro e he hgone
    by_cases hold : e ∈ edges
    · exact (hkept e hold hgone).2
    · exact .tail _ (h.removed e he hold)
  · intro y
    have hy := h.seen_iff y
    simp only [List.mem_cons, Event.visit.injEq, hy]
  · intro y hy
    rcases List.mem_cons.mp hy with rfl | hy
    · left
      simp
    · rcases h.open_or_passed y hy with hopen | hpassed
      · exact .inl (List.mem_append_right _ hopen)
      · exact .inr (.tail _ hpassed)
  · intro y hy
    have hpassed : Event.pass y ∈ events := by simpa using hy
    exact .tail _ (h.passed_seen y hpassed)
  · intro y hy c hc
    have hpassed : Event.pass y ∈ events := by simpa using hy
    exact .tail _ (h.passed_closed y hpassed c hc)
  · rcases h.started with hopen | hpassed
    · exact .inl (List.mem_append_right _ hopen)
    · exact .inr (.tail _ hpassed)
  · intro y hy
    have hx : Reachable edges₀ start x := h.reachable x (.inl (.head _))
    rcases hy with hy | hy
    · rcases List.mem_append.mp hy with hnew | hold
      · have hedge := (mem_unseen.mp (List.mem_reverse.mp hnew)).1
        exact hx.tail (h.edges_sub.subset hedge)
      · exact h.reachable y (.inl hold)
    · rcases List.mem_cons.mp hy with rfl | hy
      · exact hx
      · exact h.reachable y (.inr hy)
  · intro upper y lower hsplit hy c hc
    obtain ⟨upper', hrest, rfl⟩ := hbelow upper y lower hsplit hy
    have hedge : (y, c) ∈ edges := hsub.subset hc
    by_cases hcseen : c ∈ x :: seen
    · exact .inl hcseen
    right
    by_cases hyx : y = x
    · subst hyx
      exact List.mem_append_left _ (List.mem_reverse.mpr (mem_unseen.mpr ⟨hedge, hcseen⟩))
    have hyseen : y ∈ seen := (List.mem_cons.mp hy).resolve_left hyx
    rcases h.pending upper' y lower hrest hyseen c hedge with hold | hupper
    · exact absurd (.tail _ hold) hcseen
    · exact List.mem_append_right _ hupper
  intro upper t lower hsplit ht c hclower hcseen hcpass hcupper
  obtain ⟨upper', hrest, rfl⟩ := hbelow upper t lower hsplit ht
  have hcpassed : Event.pass c ∉ events := by simpa using hcpass
  have hcupper' : c ∉ upper' := fun hmem => hcupper (List.mem_append_right _ hmem)
  by_cases hct : c = t
  · subst hct
    have hvisit : Event.visit c ∈ Event.visit x :: events := by
      rcases List.mem_cons.mp hcseen with rfl | hold
      · exact (.head _)
      · exact .tail _ ((h.seen_iff c).mp hold)
    exact earlier_self hvisit
  by_cases htx : t = x
  · subst htx
    have hold : c ∈ seen := (List.mem_cons.mp hcseen).resolve_left hct
    exact (earlier_of_unvisited ((h.seen_iff c).mp hold) hunvisited).append [.visit t]
  have htseen : t ∈ seen := (List.mem_cons.mp ht).resolve_left htx
  -- The top of the old stack is `x`, above `t`, so `c` is not `x`.
  have hcx : c ≠ x := by
    rintro rfl
    cases upper' with
    | nil =>
      obtain ⟨rfl, -⟩ := List.cons_eq_cons.mp hrest
      exact htx rfl
    | cons y upper' =>
      obtain ⟨rfl, -⟩ := List.cons_eq_cons.mp hrest
      exact hcupper' (.head _)
  have hold : c ∈ seen := (List.mem_cons.mp hcseen).resolve_left hcx
  exact (h.layered upper' t lower hrest htseen c hclower hold hcpassed hcupper').append
    [.visit x]

theorem Inv.leave (hunseen : unseen edges (x :: seen) x = []) (hsub : kept.Sublist edges)
    (hkept : ∀ e ∈ edges, e ∉ kept → e.1 = x ∨ e.2 = x)
    (hfresh : ∀ event ∈ fresh, event = .visit x ∨ event = .pass x) :
    Inv edges₀ start ⟨rest, x :: seen, kept, fresh ++ .pass x :: .visit x :: events⟩ := by
  have htargets : ∀ c, (x, c) ∈ edges₀ → c ∈ x :: seen := by
    intro c hc
    by_cases hedge : (x, c) ∈ edges
    · by_contra hnew
      have hmem := mem_unseen.mpr ⟨hedge, hnew⟩
      rw [hunseen] at hmem
      cases hmem
    · exact .tail _ (h.removed _ hc hedge)
  have hpass : ∀ y, Event.pass y ∈ fresh ++ .pass x :: .visit x :: events ↔
      y = x ∨ Event.pass y ∈ events := by
    intro y
    simp only [List.mem_append, List.mem_cons, Event.pass.injEq, reduceCtorEq, false_or]
    constructor
    · rintro (hy | hy)
      · rcases hfresh _ hy with hevent | hevent
        · cases hevent
        · exact .inl (Event.pass.inj hevent)
      · exact hy
    · exact .inr
  have hvisit : ∀ y, Event.visit y ∈ fresh ++ .pass x :: .visit x :: events ↔
      y = x ∨ Event.visit y ∈ events := by
    intro y
    simp only [List.mem_append, List.mem_cons, Event.visit.injEq, reduceCtorEq, false_or]
    constructor
    · rintro (hy | hy)
      · rcases hfresh _ hy with hevent | hevent
        · exact .inl (Event.visit.inj hevent)
        · cases hevent
      · exact hy
    · exact .inr
  refine ⟨?_, ?_, ?_, ?_, ?_, ?_, ?_, ?_, ?_, ?_, ?_⟩
  · exact hsub.trans h.edges_sub
  · intro e he hgone
    by_cases hold : e ∈ edges
    · rcases hkept e hold hgone with hsource | htarget
      · exact htargets e.2 (hsource ▸ he)
      · exact htarget ▸ (.head _)
    · exact .tail _ (h.removed e he hold)
  · intro y
    rw [hvisit, List.mem_cons, h.seen_iff]
  · intro y hy
    rw [hpass]
    rcases List.mem_cons.mp hy with rfl | hy
    · exact .inr (.inl rfl)
    rcases h.open_or_passed y hy with hopen | hpassed
    · rcases List.mem_cons.mp hopen with rfl | hopen
      · exact .inr (.inl rfl)
      · exact .inl hopen
    · exact .inr (.inr hpassed)
  · intro y hy
    rcases (hpass y).mp hy with rfl | hy
    · exact (.head _)
    · exact .tail _ (h.passed_seen y hy)
  · intro y hy c hc
    rcases (hpass y).mp hy with rfl | hy
    · exact htargets c hc
    · exact .tail _ (h.passed_closed y hy c hc)
  · rw [hpass]
    rcases h.started with hopen | hpassed
    · rcases List.mem_cons.mp hopen with rfl | hopen
      · exact .inr (.inl rfl)
      · exact .inl hopen
    · exact .inr (.inr hpassed)
  · intro y hy
    have hx : Reachable edges₀ start x := h.reachable x (.inl (.head _))
    rcases hy with hy | hy
    · exact h.reachable y (.inl (.tail _ hy))
    · rcases List.mem_cons.mp hy with rfl | hy
      · exact hx
      · exact h.reachable y (.inr hy)
  · intro upper y lower hsplit hy c hc
    have hedge : (y, c) ∈ edges := hsub.subset hc
    by_cases hyx : y = x
    · exact .inl (htargets c (hyx ▸ h.edges_sub.subset hedge))
    have hyseen : y ∈ seen := (List.mem_cons.mp hy).resolve_left hyx
    have hstack : x :: rest = (x :: upper) ++ y :: lower := congrArg (x :: ·) hsplit
    rcases h.pending (x :: upper) y lower hstack hyseen c hedge with hold | hupper
    · exact .inl (.tail _ hold)
    · rcases List.mem_cons.mp hupper with rfl | hupper
      · exact .inl (.head _)
      · exact .inr hupper
  · intro upper t lower hsplit ht c hclower hcseen hcpass hcupper
    rw [hpass, not_or] at hcpass
    obtain ⟨hcx, hcpassed⟩ := hcpass
    have hold : c ∈ seen := (List.mem_cons.mp hcseen).resolve_left hcx
    have hstack : x :: rest = (x :: upper) ++ t :: lower := congrArg (x :: ·) hsplit
    have hearlier : Earlier events c t := by
      by_cases htseen : t ∈ seen
      · refine h.layered (x :: upper) t lower hstack htseen c hclower hold hcpassed ?_
        simp [hcx, hcupper]
      · refine earlier_of_unvisited ((h.seen_iff c).mp hold) ?_
        exact fun hvisited => htseen ((h.seen_iff t).mpr hvisited)
    have := hearlier.append (fresh ++ [.pass x, .visit x])
    simpa using this
  -- The node itself is passed in order, and what follows is about it alone.
  have hdone : ∀ c, (x, c) ∈ edges₀ →
      .pass c ∈ Event.visit x :: events ∨ Earlier (.visit x :: events) c x :=
    fun c hc => h.earlier_than_top (htargets c hc)
  have hordered := (h.ordered.visit x).pass hdone
  refine hordered.about ?_ hfresh
  intro c hc
  rcases hdone c hc with hpassed | hearlier
  · exact .inl (.tail _ hpassed)
  · exact .inr (hearlier.append [.pass x])

end

theorem Inv.step {w w' : Walk ν} (h : Inv edges₀ start w) (hstep : Step w w') :
    Inv edges₀ start w' := by
  cases hstep with
  | expand hunseen hsub hkept => exact h.expand hunseen hsub hkept
  | leave hunseen hsub hkept hfresh => exact h.leave hunseen hsub hkept hfresh

/-- Bounds the number of rounds that are left. -/
def weight (w : Walk ν) : Nat :=
  2 * (w.edges.filter fun e => e.1 ∉ w.seen).length + w.stack.length

theorem length_filter_unseen (edges : List (ν × ν)) {seen : List ν} (hx : x ∉ seen) :
    (edges.filter fun e => e.1 ∉ x :: seen).length + (edges.filter fun e => e.1 = x).length =
      (edges.filter fun e => e.1 ∉ seen).length := by
  induction edges with
  | nil => rfl
  | cons e edges ih =>
    by_cases hex : e.1 = x
    · have hseen : e.1 ∉ seen := hex ▸ hx
      simp [hex, hx] at ih ⊢
      omega
    by_cases hseen : e.1 ∈ seen
    · simp [hex, hseen] at ih ⊢
      omega
    · simp [hex, hseen] at ih ⊢
      omega

theorem length_unseen_le (edges : List (ν × ν)) (seen : List ν) (x : ν) :
    (unseen edges seen x).length ≤ (edges.filter fun e => e.1 = x).length := by
  refine Nat.le_trans (List.length_filter_le ..) ?_
  simp [targets]

theorem Inv.weight_lt {w w' : Walk ν} (h : Inv edges₀ start w) (hstep : Step w w') :
    weight w' < weight w := by
  cases hstep with
  | @expand x rest seen edges kept events hunseen hsub hkept =>
    have hsplit := length_filter_unseen edges (h.not_seen_of_unseen hunseen)
    have hfew := length_unseen_le edges (x :: seen) x
    have hsome : 0 < (unseen edges (x :: seen) x).length := List.length_pos_of_ne_nil hunseen
    have hkeep := (hsub.filter fun e => decide (e.1 ∉ x :: seen)).length_le
    simp only [weight, List.length_append, List.length_reverse, List.length_cons]
    omega
  | @leave x rest seen edges kept events fresh hunseen hsub hkept hfresh =>
    have hkeep : (kept.filter fun e => e.1 ∉ x :: seen).length ≤
        (edges.filter fun e => e.1 ∉ seen).length := by
      refine Nat.le_trans (hsub.filter _).length_le ?_
      refine (List.monotone_filter_right edges ?_).length_le
      intro e he
      simp at he ⊢
      exact he.2
    simp only [weight, List.length_cons]
    omega

end VaultProofs.StackWalks
