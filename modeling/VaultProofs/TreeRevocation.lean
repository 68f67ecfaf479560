import VaultProofs.HealthyRevocation

/-!
Tree revocation with reliable storage. The loop of `revokeTreeInternal` is a depth-first walk over
the parent index.
-/

namespace VaultProofs.TreeRevocation

open GoStrings ProgramOutcomes StackWalks TokenEffects TokenStore HealthyRevocation
open VaultEffects (GoError)

section walks

variable {revokeTree : GoString → TokenM Unit} {w : World}

theorem unseenChildren_healthy (id : SaltedID) (seenIDs children : List SaltedID) :
    Finishes healthy (unseenChildren id seenIDs children) w
      (fun found w' => found = children.filter (fun c => c ∉ seenIDs) ∧
        events w'.log = events w.log ∧ w'.state.parents.Sublist w.state.parents ∧
        (∀ e ∈ w.state.parents, e ∉ w'.state.parents → e.1 = id ∧ e.2 ∈ seenIDs) ∧
        (∀ c ∈ children, c ∈ seenIDs → (id, c) ∉ w'.state.parents) ∧
        ∀ token, SameToken token w w')
      never := by
  induction children generalizing w with
  | nil =>
    exact ⟨rfl, rfl, List.Sublist.refl _, fun e he hgone => absurd he hgone, by simp,
      fun token => SameToken.refl token w⟩
  | cons child rest ih =>
    rw [unseenChildren]
    split
    · rename_i hseen
      simp only [finishes_bind, wrapErr, finishes_mapError, finishes_healthy, effect, outcomePost,
        forall_const]
      refine ih.imp ?_
      rintro found w' ⟨rfl, hevents, hsub, hkept, hgone, hsame⟩
      simp only [deletePath] at hsub hkept
      refine ⟨by simp [hseen], hevents, hsub.trans List.filter_sublist, ?_, ?_, ?_⟩
      · intro e he hlost
        by_cases hdeleted : e = (id, child)
        · subst hdeleted
          exact ⟨rfl, hseen⟩
        · exact hkept e (by simp [he, hdeleted]) hlost
      · intro c hc hcseen
        rcases List.mem_cons.mp hc with rfl | hc
        · intro hmem
          have := hsub.subset hmem
          simp at this
        · exact hgone c hc hcseen
      · intro token
        obtain ⟨hentry, hleases, hpending⟩ := hsame token
        exact ⟨hentry, hleases, hpending⟩
    rename_i hnew
    rw [finishes_bind]
    refine ih.imp ?_
    rintro found w' ⟨rfl, hevents, hsub, hkept, hgone, hsame⟩
    refine ⟨by simp [hnew], hevents, hsub, hkept, ?_, hsame⟩
    intro c hc hcseen
    rcases List.mem_cons.mp hc with rfl | hc
    · exact absurd hcseen hnew
    · exact hgone c hc hcseen

/-- A token after a part of a walk: as it was if the walk has not passed it, and otherwise removed,
unless something was in the way of its revocation. -/
structure TokenAfter (record : List (Event SaltedID)) (token : SaltedID) (w w' : World) :
    Prop where
  same : .pass token ∉ record → SameToken token w w'
  removed : .pass token ∈ record → Clean w.state token → w'.state.entries.find token = none
  gone : w.state.entries.find token = none → w'.state.entries.find token = none

variable {record : List (Event SaltedID)} {token : SaltedID} {a b c : World}

theorem TokenAfter.right (h : TokenAfter record token a b) (hsame : SameToken token b c) :
    TokenAfter record token a c where
  same hpass := (h.same hpass).trans hsame
  removed hpass hclean := hsame.entry.trans (h.removed hpass hclean)
  gone hnone := hsame.entry.trans (h.gone hnone)

theorem TokenAfter.left (h : TokenAfter record token b c) (hsame : SameToken token a b) :
    TokenAfter record token a c where
  same hpass := hsame.trans (h.same hpass)
  removed hpass hclean := h.removed hpass (hsame.clean hclean)
  gone hnone := h.gone (hsame.entry.trans hnone)

theorem TokenAfter.visit {a b : World} (h : TokenAfter record token a b) (x : SaltedID) :
    TokenAfter (.visit x :: record) token a b where
  same hpass := h.same fun hmem => hpass (.tail _ hmem)
  removed hpass := h.removed (by simpa using hpass)
  gone := h.gone

variable {id : SaltedID}

theorem TokenAfter.pass {record fresh : List (Event SaltedID)} (h : TokenAfter record token a b)
    (hrevoked : LeafRevoked id b c)
    (hfresh : ∀ event ∈ fresh, event = .visit id ∨ event = .pass id) :
    TokenAfter (fresh ++ .pass id :: record) token a c := by
  by_cases htoken : token = id
  · subst htoken
    refine ⟨fun hpass => absurd (by simp) hpass, ?_, fun hnone => hrevoked.gone (h.gone hnone)⟩
    intro _ hclean
    by_cases hold : .pass token ∈ record
    · exact hrevoked.gone (h.removed hold hclean)
    · exact hrevoked.removed ((h.same hold).clean hclean)
  have hsame := hrevoked.others token htoken
  have hmem : .pass token ∈ fresh ++ .pass id :: record → .pass token ∈ record := by
    intro hpass
    rcases List.mem_append.mp hpass with hevent | hevent
    · rcases hfresh _ hevent with heq | heq
      · cases heq
      · exact absurd (Event.pass.inj heq) htoken
    · simpa [htoken] using hevent
  refine ⟨?_, fun hpass hclean => hsame.entry.trans (h.removed (hmem hpass) hclean),
    fun hnone => hsame.entry.trans (h.gone hnone)⟩
  intro hpass
  refine (h.same fun hold => hpass ?_).trans hsame
  exact List.mem_append_right _ (.tail _ hold)

def Walked (id : SaltedID) (w w' : World) : Prop :=
  ∃ walk, Inv w.state.parents id walk ∧ walk.stack = [] ∧ w'.state.parents = walk.edges ∧
    events w'.log = walk.events ++ events w.log ∧
    ∀ token, TokenAfter walk.events token w w'

theorem revokeTreeLoop_healthy (hN : LeafSound revokeTree) {edges₀ : List (SaltedID × SaltedID)}
    {start : SaltedID} {base : List (Event SaltedID)} {w₀ : World} (fuel : Nat)
    {walk : Walk SaltedID}
    (hinv : Inv edges₀ start walk) (hstack : walk.stack ≠ []) (hfuel : weight walk ≤ fuel)
    (hparents : w.state.parents = walk.edges) (hevents : events w.log = walk.events ++ base)
    (htokens : ∀ token, TokenAfter walk.events token w₀ w) :
    Finishes healthy (revokeTreeLoop revokeTree fuel walk.stack walk.seen) w
      (fun _ w' => ∃ walk', Inv edges₀ start walk' ∧ walk'.stack = [] ∧
        w'.state.parents = walk'.edges ∧ events w'.log = walk'.events ++ base ∧
        ∀ token, TokenAfter walk'.events token w₀ w')
      never := by
  induction fuel generalizing w walk with
  | zero =>
    have hlength := List.length_pos_of_ne_nil hstack
    unfold weight at hfuel
    omega
  | succ fuel ih =>
    obtain ⟨stack, seen, edges, record⟩ := walk
    cases stack with
    | nil => exact absurd rfl hstack
    | cons id dfs =>
      simp only [revokeTreeLoop, finishes_bind, wrapErr, finishes_mapError, finishes_healthy,
        effect, outcomePost, forall_const]
      refine (unseenChildren_healthy id (id :: seen) _).imp ?_
      rintro children w₁ ⟨hchildren, hevents₁, hsub, hkept, hgone, hsame⟩
      have hunseen : children = unseen edges (id :: seen) id := by
        rw [hchildren, hparents]
        rfl
      have hrecord : events w₁.log = (.visit id :: record) ++ base := by
        rw [hevents₁]
        exact congrArg (Event.visit id :: ·) hevents
      simp only [hparents] at hsub hkept hgone
      have htokens₁ : ∀ token, TokenAfter (.visit id :: record) token w₀ w₁ := by
        intro token
        obtain ⟨hentry, hleases, hpending⟩ := hsame token
        exact ((htokens token).visit id).right ⟨hentry, hleases, hpending⟩
      split
      · rename_i hnone
        have hnil : unseen edges (id :: seen) id = [] := hunseen ▸ hnone
        have hleaf : ∀ c, (id, c) ∉ w₁.state.parents := by
          intro c hc
          have hedge : (id, c) ∈ edges := hsub.subset hc
          by_cases hseen : c ∈ id :: seen
          · exact hgone c (mem_targets.mpr hedge) hseen hc
          · have hmem := mem_unseen.mpr ⟨hedge, hseen⟩
            rw [hnil] at hmem
            cases hmem
        simp only [finishes_bind, finishes_mapError]
        refine (revokeInternal_leaf hleaf (.inr hN)).imp ?_
        rintro _ w₂ hrevoked
        obtain ⟨fresh, hfresh, habout⟩ := hrevoked.fresh
        have hstep : Step ⟨id :: dfs, seen, edges, record⟩
            ⟨dfs, id :: seen, w₂.state.parents, fresh ++ .pass id :: .visit id :: record⟩ := by
          refine Step.leave hnil (hrevoked.sub.trans hsub) ?_ habout
          intro e he hlost
          by_cases hmid : e ∈ w₁.state.parents
          · exact .inr (hrevoked.kept e hmid hlost)
          · exact .inl (hkept e he hmid).1
        have hnext := hinv.step hstep
        have hless := hinv.weight_lt hstep
        have hrecord₂ : events w₂.log =
            (fresh ++ .pass id :: .visit id :: record) ++ base := by
          rw [hfresh, hrecord]
          simp
        have htokens₂ := fun token => (htokens₁ token).pass hrevoked habout
        split
        · rename_i hlast
          subst hlast
          exact ⟨_, hnext, rfl, rfl, hrecord₂, htokens₂⟩
        · rename_i hmore
          exact ih hnext hmore (by omega) rfl hrecord₂ htokens₂
      rename_i hsome
      have hstep : Step ⟨id :: dfs, seen, edges, record⟩
          ⟨(unseen edges (id :: seen) id).reverse ++ id :: dfs, id :: seen,
            w₁.state.parents, .visit id :: record⟩ :=
        Step.expand (hunseen ▸ hsome) hsub hkept
      have hless := hinv.weight_lt hstep
      rw [hunseen]
      exact ih (hinv.step hstep) (by simp) (by omega) rfl hrecord htokens₁

variable {fuel : Nat}

theorem walked_start (hN : LeafSound revokeTree) (id : SaltedID)
    (hfuel : 2 * w.state.parents.length + 1 ≤ fuel) :
    Finishes healthy (revokeTreeLoop revokeTree fuel [id] []) w (fun _ w' => Walked id w w')
      never := by
  refine revokeTreeLoop_healthy hN fuel (inv_start w.state.parents id) (by simp) ?_ rfl rfl
    fun token => ⟨fun _ => SameToken.refl token w, nofun, fun h => h⟩
  simpa [weight] using hfuel

theorem Walked.left (h : Walked id b c) (hquiet : Quiet id a b)
    (hclean : Clean a.state id → Clean b.state id)
    (habsent : a.state.entries.find id = none → b.state.entries.find id = none) :
    Walked id a c := by
  obtain ⟨walk, hinv, hend, hparents, hevents, htokens⟩ := h
  rw [hquiet.parents] at hinv
  rw [hquiet.events] at hevents
  refine ⟨walk, hinv, hend, hparents, hevents, ?_⟩
  intro token
  by_cases htoken : token = id
  · subst htoken
    have hstart := hinv.all_passed hend Relation.ReflTransGen.refl
    exact ⟨absurd hstart,
      fun hpass ha => (htokens token).removed hpass (hclean ha),
      fun ha => (htokens token).gone (habsent ha)⟩
  · exact (htokens token).left (hquiet.others token htoken)

/-- A finished walk from `id`, with nothing said about `id` itself. -/
def WalkedAround (id : SaltedID) (w w' : World) : Prop :=
  ∃ walk, Inv w.state.parents id walk ∧ walk.stack = [] ∧ w'.state.parents = walk.edges ∧
    events w'.log = walk.events ++ events w.log ∧
    ∀ token, token ≠ id → TokenAfter walk.events token w w'

theorem Walked.around {a b : World} (h : Walked id a b) : WalkedAround id a b := by
  obtain ⟨walk, hinv, hend, hparents, hevents, htokens⟩ := h
  exact ⟨walk, hinv, hend, hparents, hevents, fun token _ => htokens token⟩

theorem WalkedAround.left (h : WalkedAround id b c) (hquiet : Quiet id a b) :
    WalkedAround id a c := by
  obtain ⟨walk, hinv, hend, hparents, hevents, htokens⟩ := h
  rw [hquiet.parents] at hinv
  rw [hquiet.events] at hevents
  exact ⟨walk, hinv, hend, hparents, hevents,
    fun token htoken => (htokens token htoken).left (hquiet.others token htoken)⟩

theorem WalkedAround.right (h : WalkedAround id a b) (hquiet : Quiet id b c) :
    WalkedAround id a c := by
  obtain ⟨walk, hinv, hend, hparents, hevents, htokens⟩ := h
  exact ⟨walk, hinv, hend, hquiet.parents.trans hparents, hquiet.events.trans hevents,
    fun token htoken => (htokens token htoken).right (hquiet.others token htoken)⟩

theorem WalkedAround.sub {a b : World} (h : WalkedAround id a b) :
    b.state.parents.Sublist a.state.parents := by
  obtain ⟨walk, hinv, hend, hparents, hevents, htokens⟩ := h
  rw [hparents]
  exact hinv.edges_sub

/-- Nothing has happened but to `id`, or one walk from `id`. -/
def QuietOrWalked (id : SaltedID) (w w' : World) : Prop :=
  Quiet id w w' ∨ WalkedAround id w w'

theorem quietOrWalked_absorbs (id : SaltedID) : Absorbs id (QuietOrWalked id) where
  quiet h := .inl h
  left h hquiet := h.imp hquiet.trans (WalkedAround.left · hquiet)
  right h hquiet := h.imp (Quiet.trans · hquiet) (WalkedAround.right · hquiet)

theorem QuietOrWalked.sub {a b : World} (h : QuietOrWalked id a b) :
    b.state.parents.Sublist a.state.parents := by
  rcases h with hquiet | hwalked
  · rw [hquiet.parents]
  · exact hwalked.sub

def WalkSound (fuel : Nat) (revokeTree : GoString → TokenM Unit) : Prop :=
  ∀ token w, token ≠ [] → 2 * w.state.parents.length + 1 ≤ fuel → Leased w.state ⟨token⟩ →
    Finishes healthy (revokeTree token) w (fun _ w' => Walked ⟨token⟩ w w') never

theorem WalkSound.nestedRuns (h : WalkSound fuel revokeTree) {key : SaltedID}
    (hfuel : 2 * w.state.parents.length + 1 ≤ fuel) (hbare : ¬ Leased w.state key) :
    NestedRuns revokeTree (QuietOrWalked key) w key := by
  intro w' hquiet hleased _
  have hfuel' : 2 * w'.state.parents.length + 1 ≤ fuel := by
    rw [hquiet.parents]
    exact hfuel
  exact (h key.id w' (id_ne_nil_of_not_leased hbare) hfuel' hleased).imp
    fun _ _ hwalked => .inr hwalked.around

theorem revokeTreeInternal_healthy (hleaf : LeafSound revokeTree) (id : SaltedID)
    (hwalk : Leased w.state id ∨ WalkSound fuel revokeTree)
    (hfuel : 2 * w.state.parents.length + 1 ≤ fuel) :
    Finishes healthy (revokeTreeInternal revokeTree fuel id) w
      (fun _ w' => Walked id w w' ∨
        ¬ Leased w.state id ∧ ∃ w₁, QuietOrWalked id w w₁ ∧ Walked id w₁ w')
      never := by
  have hnested : ¬ Leased w.state id → NestedRuns revokeTree (QuietOrWalked id) w id :=
    fun hbare => (hwalk.resolve_left hbare).nestedRuns hfuel hbare
  -- The loop, from wherever the lookup has left the world.
  have hloop : ∀ found w₁, QuietOrWalked id w w₁ → (Leased w.state id → Found id w w₁ found) →
      Finishes healthy (revokeTreeLoop revokeTree fuel [id] []) w₁
        (fun _ w' => Walked id w w' ∨
          ¬ Leased w.state id ∧ ∃ w₁, QuietOrWalked id w w₁ ∧ Walked id w₁ w') never := by
    intro found w₁ hw₁ hfound
    refine Finishes.imp (walked_start hleaf id ?_) ?_
    · have := hw₁.sub.length_le
      omega
    intro _ w' hwalked
    by_cases hleased : Leased w.state id
    · obtain ⟨hquiet, hleased₁, hpending, -, habsent, -⟩ := hfound hleased
      exact .inl (hwalked.left hquiet (fun hclean => ⟨hleased₁, hpending ▸ hclean.2⟩) habsent)
    · exact .inr ⟨hleased, w₁, hw₁, hwalked⟩
  have habsorbs := quietOrWalked_absorbs id
  refine (lookupSalted_healthy habsorbs.follows hnested).bind ?_
  rintro (_ | te) w₁ hlookup
  · exact hloop none w₁ (hlookup.absorbed habsorbs) hlookup.leased
  simp only [finishes_bind, namespaceByID, finishes_healthy, effect, outcomePost,
    (hlookup.upgraded te rfl).2.1, if_true, forall_const]
  have hread : Quiet id w₁ ⟨w₁.state, .namespaceByID rootNamespaceID :: w₁.log⟩ :=
    quiet_read _
  exact hloop (some te) _ (habsorbs.right (hlookup.absorbed habsorbs) hread)
    fun h => (hlookup.leased h).right hread rfl

theorem revokeTreeInternal_leaf (hleaf : ∀ c, (id, c) ∉ w.state.parents)
    (hleased : Leased w.state id) :
    Finishes healthy (revokeTreeInternal revokeTree (fuel + 1) id) w
      (fun _ w' => LeafChange id w w') never := by
  have hloop : ∀ w₁, Quiet id w w₁ → Leased w₁.state id →
      Finishes healthy (revokeTreeLoop revokeTree (fuel + 1) [id] []) w₁
        (fun _ w' => LeafChange id w w') never := by
    intro w₁ hquiet hleased₁
    have hleaf₁ : ∀ c, (id, c) ∉ w₁.state.parents := by
      intro c
      rw [hquiet.parents]
      exact hleaf c
    have hchildren : childrenOf w₁.state.parents id = [] := by
      simp only [childrenOf, List.map_eq_nil_iff, List.filter_eq_nil_iff, decide_eq_true_eq]
      rintro ⟨parent, child⟩ he rfl
      exact hleaf₁ child he
    simp only [revokeTreeLoop, finishes_bind, wrapErr, finishes_mapError, finishes_healthy, effect,
      outcomePost, forall_const, hchildren, unseenChildren, finishes_pure, if_true]
    refine Finishes.imp (revokeInternal_leaf ?_ ?_) ?_
    · exact hleaf₁
    · exact .inl hleased₁
    intro _ w₂ hrevoked
    have hvisit : LeafChange id w₁ ⟨w₁.state, .listChildren id :: w₁.log⟩ :=
      ⟨List.Sublist.refl _, fun e he hgone => absurd he hgone, ⟨[.visit id], rfl, by simp⟩,
        fun token _ => ⟨rfl, fun _ => rfl, rfl⟩⟩
    exact (hquiet.leafChange.trans hvisit).trans hrevoked.leafChange
  have hnested : ¬ Leased w.state id → NestedRuns revokeTree (LeafChange id) w id :=
    absurd hleased
  refine (lookupSalted_healthy (leafChange_absorbs id).follows hnested).bind ?_
  rintro (_ | te) w₁ hlookup
  · exact hloop w₁ (hlookup.leased hleased).quiet (hlookup.leased hleased).leased
  simp only [finishes_bind, namespaceByID, finishes_healthy, effect, outcomePost,
    (hlookup.upgraded te rfl).2.1, if_true, forall_const]
  have hfound := hlookup.leased hleased
  exact hloop _ (hfound.quiet.trans (quiet_read _)) hfound.leased

end walks

theorem leafSound_revokeTree (fuel depth : Nat) :
    LeafSound (revokeTree (fuel + 1) (depth + 1)) := by
  intro token w htoken hleaf hleased
  simp only [revokeTree, if_neg htoken, saltID, finishes_bind, finishes_healthy, effect,
    outcomePost, forall_const]
  refine Finishes.imp (revokeTreeInternal_leaf ?_ ?_) ?_
  · exact hleaf
  · exact hleased
  · intro _ w' h
    exact (leafChange_absorbs _).left h (quiet_read _)

theorem walkSound_revokeTree (fuel depth : Nat) :
    WalkSound (fuel + 1) (revokeTree (fuel + 1) (depth + 2)) := by
  intro token w htoken hfuel hleased
  rw [revokeTree, if_neg htoken]
  simp only [saltID, finishes_bind, finishes_healthy, effect, outcomePost, forall_const]
  refine Finishes.imp (revokeTreeInternal_healthy (leafSound_revokeTree fuel depth) _ ?_ ?_) ?_
  · exact .inl hleased
  · exact hfuel
  · rintro _ w' (hwalked | ⟨hbare, -⟩)
    · exact hwalked.left (quiet_read _) id id
    · exact absurd hleased hbare

/-- One call of `revokeTreeInternal`, in an environment for each of its operations. -/
def treeRevocation (env : Nat → StepEnv) (s : TokenState) (id : SaltedID) (depth fuel : Nat) :
    Except GoError Unit × World :=
  runFrom exec env (revokeTreeInternal (revokeTree fuel depth) fuel id).run ⟨s, []⟩

theorem WalkedAround.all_passed {id : SaltedID} {s : TokenState} {w' : World}
    (h : WalkedAround id ⟨s, []⟩ w') :
    (∀ token, Reachable s.parents id token → .pass token ∈ events w'.log) ∧
      Ordered s.parents (events w'.log) := by
  obtain ⟨walk, hinv, hend, -, hevents, -⟩ := h
  have hrecord : events w'.log = walk.events := by simpa [events] using hevents
  rw [hrecord]
  exact ⟨fun token => hinv.all_passed hend, hinv.ordered⟩

theorem WalkedAround.again {id : SaltedID} {s : TokenState} {w₁ w' : World}
    (h : WalkedAround id ⟨s, []⟩ w₁) (h' : Walked id w₁ w') :
    (∀ token, Reachable s.parents id token → .pass token ∈ events w'.log) ∧
      Ordered s.parents (events w'.log) := by
  have hsub := h.sub
  obtain ⟨hall, hordered⟩ := h.all_passed
  obtain ⟨walk, hinv, -, -, hevents, -⟩ := h'
  rw [hevents]
  refine ⟨fun token htoken => List.mem_append_right _ (hall token htoken), hordered.again ?_⟩
  intro x hx
  have hreach := hinv.reachable x (.inr (hinv.passed_seen x hx))
  exact hall x (hreach.mono hsub.subset)

/-- With reliable storage, a tree revocation ends without error, has passed every token that the
parent index reaches from its start to `revokeInternal`, and none before its children, those apart
that it had visited before. -/
theorem tree_revocation_complete (env : Nat → StepEnv) (henv : ∀ n, (env n).fails = false)
    (s : TokenState) (id : SaltedID) (depth fuel : Nat) (hdepth : 2 ≤ depth)
    (hfuel : 2 * s.parents.length + 1 ≤ fuel) :
    (treeRevocation env s id depth fuel).1 = .ok () ∧
      (∀ token, Reachable s.parents id token →
        .pass token ∈ events (treeRevocation env s id depth fuel).2.log) ∧
      Ordered s.parents (events (treeRevocation env s id depth fuel).2.log) := by
  obtain ⟨depth, rfl⟩ := Nat.exists_eq_add_of_le' hdepth
  obtain ⟨fuel, rfl⟩ : ∃ k, fuel = k + 1 := ⟨fuel - 1, by omega⟩
  have hrun := revokeTreeInternal_healthy (w := ⟨s, []⟩) (leafSound_revokeTree fuel (depth + 1)) id
    (.inr (walkSound_revokeTree fuel depth)) hfuel
  have hhealthy : ∀ n op w, healthyStep op w (exec (env n) op w).1 (exec (env n) op w).2 :=
    fun n op w => ⟨env n, henv n, rfl⟩
  obtain ⟨⟨⟩, hok, hwalked⟩ := hrun.runFrom_ok hhealthy
  refine ⟨hok, ?_⟩
  rcases hwalked with hwalked | ⟨-, w₁, hquiet | hfirst, hsecond⟩
  · exact hwalked.around.all_passed
  · exact (hsecond.around.left hquiet).all_passed
  · exact hfirst.again hsecond

def tangledIndex : TokenState where
  parents :=
    [(⟨ofString "p"⟩, ⟨ofString "a"⟩), (⟨ofString "p"⟩, ⟨ofString "b"⟩),
      (⟨ofString "a"⟩, ⟨ofString "c"⟩), (⟨ofString "b"⟩, ⟨ofString "c"⟩),
      (⟨ofString "c"⟩, ⟨ofString "p"⟩)]

theorem tangled_index_revoked :
    (treeRevocation (fun _ => {}) tangledIndex ⟨ofString "p"⟩ 2 11).1 = .ok () ∧
      (∀ token, Reachable tangledIndex.parents ⟨ofString "p"⟩ token →
        .pass token ∈
          events (treeRevocation (fun _ => {}) tangledIndex ⟨ofString "p"⟩ 2 11).2.log) ∧
      Ordered tangledIndex.parents
        (events (treeRevocation (fun _ => {}) tangledIndex ⟨ofString "p"⟩ 2 11).2.log) :=
  tree_revocation_complete (fun _ => {}) (fun _ => rfl) tangledIndex ⟨ofString "p"⟩ 2 11
    (by decide) (by decide)

/-- What a revocation of the tree under `id` leaves of a token: removed if the index reaches it and
nothing was in the way, untouched if it does not. -/
def TreeRevoked (id token : SaltedID) (w w' : World) : Prop :=
  (Reachable w.state.parents id token → Clean w.state token →
      w'.state.entries.find token = none) ∧
    (¬ Reachable w.state.parents id token → SameToken token w w')

theorem TokenAfter.treeRevoked {id token : SaltedID} {w w' : World} {walk : Walk SaltedID}
    (h : TokenAfter walk.events token w w') (hinv : Inv w.state.parents id walk)
    (hend : walk.stack = []) : TreeRevoked id token w w' := by
  refine ⟨fun hreach => h.removed (hinv.all_passed hend hreach), fun hout => h.same ?_⟩
  exact fun hpass => hout (hinv.reachable token (.inr (hinv.passed_seen token hpass)))

/-- With reliable storage, a tree revocation removes what is in the tree and can be revoked, and no
token outside of the tree is touched, not even where it meets tokens without their leases. -/
theorem tree_revocation_exact (env : Nat → StepEnv) (henv : ∀ n, (env n).fails = false)
    (s : TokenState) (id : SaltedID) (depth fuel : Nat) (hdepth : 2 ≤ depth)
    (hfuel : 2 * s.parents.length + 1 ≤ fuel) (token : SaltedID) :
    TreeRevoked id token ⟨s, []⟩ (treeRevocation env s id depth fuel).2 := by
  obtain ⟨depth, rfl⟩ := Nat.exists_eq_add_of_le' hdepth
  obtain ⟨fuel, rfl⟩ : ∃ k, fuel = k + 1 := ⟨fuel - 1, by omega⟩
  have hrun := revokeTreeInternal_healthy (w := ⟨s, []⟩) (leafSound_revokeTree fuel (depth + 1)) id
    (.inr (walkSound_revokeTree fuel depth)) hfuel
  have hhealthy : ∀ n op w, healthyStep op w (exec (env n) op w).1 (exec (env n) op w).2 :=
    fun n op w => ⟨env n, henv n, rfl⟩
  obtain ⟨⟨⟩, -, hwalked⟩ := hrun.runFrom_ok hhealthy
  rcases hwalked with ⟨walk, hinv, hend, -, -, htokens⟩ | ⟨hbare, w₁, hfirst, hsecond⟩
  · exact (htokens token).treeRevoked hinv hend
  by_cases htoken : token = id
  · -- without its lease the start of the tree is not clean, and it is in the tree
    subst htoken
    exact ⟨fun _ hclean => absurd hclean.1 hbare, fun hout => absurd .refl hout⟩
  rcases hfirst with hquiet | hfirst
  · obtain ⟨walk, hinv, hend, -, -, htokens⟩ := hsecond.around.left hquiet
    exact (htokens token htoken).treeRevoked hinv hend
  have hsub := hfirst.sub
  obtain ⟨walk₁, hinv₁, hend₁, -, -, htokens₁⟩ := hfirst
  obtain ⟨walk, hinv, hend, -, -, htokens⟩ := hsecond
  obtain ⟨hremoved, hsame⟩ := (htokens₁ token htoken).treeRevoked hinv₁ hend₁
  refine ⟨fun hreach hclean => (htokens token).gone (hremoved hreach hclean), fun hout => ?_⟩
  refine (hsame hout).trans (((htokens token).treeRevoked hinv hend).2 fun hreach => hout ?_)
  exact hreach.mono hsub.subset

theorem tangled_tree_revoked : TreeRevoked ⟨ofString "p"⟩ ⟨ofString "c"⟩ ⟨tangledIndex, []⟩
    (treeRevocation (fun _ => {}) tangledIndex ⟨ofString "p"⟩ 2 11).2 :=
  tree_revocation_exact (fun _ => {}) (fun _ => rfl) tangledIndex ⟨ofString "p"⟩ 2 11 (by decide)
    (by decide) ⟨ofString "c"⟩

end VaultProofs.TreeRevocation
