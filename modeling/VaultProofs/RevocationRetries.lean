import VaultProofs.FlaggedTokens
import VaultProofs.TreeRevocation

/-!
Retrying a failed revocation. `revokeInternal` sets the deletion flag of the token
first, and the function it defers takes the flag back after a failure.
-/

namespace VaultProofs.RevocationRetries

open GoStrings ProgramOutcomes TokenEffects TokenStore HealthyRevocation TreeRevocation
open FlaggedTokens
open VaultEffects (GoError storageFailed)

def Shrunk (w w' : World) : Prop :=
  w'.state.parents.Sublist w.state.parents

theorem Shrunk.trans {a b c : World} (hab : Shrunk a b) (hbc : Shrunk b c) : Shrunk a c :=
  List.Sublist.trans hbc hab

theorem Shrunk.fuel {w w' : World} (h : Shrunk w w') {fuel : Nat}
    (hfuel : 2 * w.state.parents.length + 1 ≤ fuel) :
    2 * w'.state.parents.length + 1 ≤ fuel := by
  have := List.Sublist.length_le h
  omega

theorem Quiet.shrunk {key : SaltedID} {w w' : World} (h : Quiet key w w') : Shrunk w w' := by
  rw [Shrunk, h.parents]

theorem shrunk_absorbs (key : SaltedID) : Absorbs key Shrunk where
  quiet h := Quiet.shrunk h
  left h hquiet := (Quiet.shrunk hquiet).trans h
  right h hquiet := h.trans (Quiet.shrunk hquiet)

section retries

variable {revokeTree : GoString → TokenM Unit} {fuel : Nat} {w : World}

section

variable (hwalk : WalkSound fuel revokeTree)

include hwalk

theorem nestedRuns_shrunk {key : SaltedID} (hfuel : 2 * w.state.parents.length + 1 ≤ fuel)
    (hbare : ¬ Leased w.state key) : NestedRuns revokeTree Shrunk w key :=
  fun w' hquiet hleased hpending =>
    (hwalk.nestedRuns hfuel hbare w' hquiet hleased hpending).imp
      fun _ _ h => QuietOrWalked.sub h

theorem orphanChild_healthy (hfuel : 2 * w.state.parents.length + 1 ≤ fuel) (child : SaltedID) :
    Finishes healthy (orphanChild revokeTree child) w (fun _ w' => Shrunk w w') never := by
  rw [orphanChild, wrapErr, finishes_bind, finishes_mapError]
  refine (lookupSalted_healthy (shrunk_absorbs child).follows
    (nestedRuns_shrunk hwalk hfuel)).imp ?_
  rintro (_ | entry) w₁ hfound
  · simp only [wrapErr, finishes_mapError, finishes_healthy, effect, outcomePost, forall_const]
    exact hfound.absorbed (shrunk_absorbs child)
  have hns : (orphaned entry).namespaceID = rootNamespaceID := (hfound.upgraded entry rfl).2.1
  simp only [finishes_bind, wrapErr, finishes_mapError, finishes_healthy, effect, outcomePost,
    forall_const, finishes_capture, finishes_resume, store_healthy hns]
  exact hfound.absorbed (shrunk_absorbs child)

theorem orphanChildren_healthy (children : List SaltedID)
    (hfuel : 2 * w.state.parents.length + 1 ≤ fuel) :
    Finishes healthy (orphanChildren revokeTree children) w (fun _ w' => Shrunk w w') never := by
  induction children generalizing w with
  | nil => exact List.Sublist.refl _
  | cons child rest ih =>
    refine (orphanChild_healthy hwalk hfuel child).bind ?_
    intro _ w₁ h₁
    refine (ih (h₁.fuel hfuel)).imp ?_
    exact fun _ w₂ h₂ => h₁.trans h₂

theorem removeReferences_shrunk {entry : TokenEntry} (hns : entry.namespaceID = rootNamespaceID)
    (skipOrphan : Bool) (hfuel : 2 * w.state.parents.length + 1 ≤ fuel) :
    Finishes healthy (removeReferences revokeTree entry.saltedID entry skipOrphan) w
      (fun _ w' => Shrunk w w') never := by
  rw [removeReferences, hns]
  refine (destroyCubbyhole_healthy hns entry.saltedID).bind ?_
  intro _ w₁ h₁
  refine (revokeByToken_healthy entry.id entry.path).bind ?_
  intro _ w₂ h₂
  refine clearParentIndex_healthy.bind ?_
  intro _ w₃ h₃
  refine (clearAccessor_healthy entry.saltedID).bind ?_
  intro _ w₄ h₄
  have hshrunk : Shrunk w w₄ := ((Quiet.shrunk (h₁.trans h₂)).trans h₃.sub).trans (Quiet.shrunk h₄)
  cases skipOrphan with
  | true => exact hshrunk
  | false =>
    simp only [Bool.false_eq_true, if_false, finishes_bind, wrapErr, finishes_mapError,
      finishes_healthy, effect, outcomePost, forall_const]
    refine Finishes.imp (orphanChildren_healthy hwalk _ ?_) ?_
    · exact hshrunk.fuel hfuel
    · exact fun _ w₅ h₅ => hshrunk.trans h₅

theorem findRevoked_bare {id : SaltedID} (hfuel : 2 * w.state.parents.length + 1 ≤ fuel)
    (hflag : w.state.pending (.salted id) ≠ some true) (hbare : ¬ Leased w.state id)
    (hsettled : ∀ stored ∈ w.state.entries.find id, persistNeeded stored = false) :
    Finishes healthy (findRevoked revokeTree id) w
      (fun found w' => found = none ∧ w'.state.entries.find id = none) never := by
  have hfollows : Follows id fun _ w' => w'.state.entries.find id = none :=
    ⟨fun h _ => h, fun _ h => h⟩
  have hnested : NestedRuns revokeTree (fun _ w' => w'.state.entries.find id = none) w id := by
    intro w' hquiet hleased hpending
    have hfuel' : 2 * w'.state.parents.length + 1 ≤ fuel := (Quiet.shrunk hquiet).fuel hfuel
    refine (hwalk id.id w' (id_ne_nil_of_not_leased hbare) hfuel' hleased).imp ?_
    rintro _ w'' ⟨walk, hinv, hend, -, -, htokens⟩
    have hpassed := hinv.all_passed hend Relation.ReflTransGen.refl
    exact (htokens id).removed hpassed ⟨hleased, hpending ▸ hflag⟩
  refine (lookupSalted_healthy hfollows fun _ => hnested).bind ?_
  rintro found w₁ hlookup
  obtain ⟨rfl, w₂, hgone, -, hsame⟩ := hlookup.bare hbare
  rw [hsame hsettled]
  exact ⟨rfl, hgone⟩

theorem revokeInternal_removes {id : SaltedID} (hfuel : 2 * w.state.parents.length + 1 ≤ fuel)
    (hflag : w.state.pending (.salted id) = some false)
    (hsettled : ∀ stored ∈ w.state.entries.find id, Settled stored) (skipOrphan : Bool) :
    Finishes healthy (revokeInternal revokeTree id skipOrphan) w
      (fun _ w' => w'.state.entries.find id = none) never := by
  simp only [revokeInternal, finishes_bind, finishes_healthy, effect, outcomePost, forall_const,
    hflag, Option.getD_some]
  set w₁ : World := ⟨{ w.state with
    pending := Function.update w.state.pending (.salted id) (some false) },
    .loadOrStorePending (.salted id) :: w.log⟩ with hw₁
  have hflag₁ : w₁.state.pending (.salted id) ≠ some true := by simp [hw₁]
  rw [revokeFlagged, finishes_bind]
  by_cases hleased : Leased w.state id
  · refine Finishes.imp (findRevoked_healthy (shrunk_absorbs id) ?_) ?_
    · exact absurd hleased
    rintro (_ | entry) w₂ hfound
    · exact hfound.gone hleased rfl
    obtain ⟨rfl, hns⟩ := hfound.entry entry rfl
    simp only [finishes_bind, finishes_capture]
    refine Finishes.mono (removeReferences_shrunk hwalk hns skipOrphan ?_) ?_
      fun _ _ h => h.elim
    · exact hfound.change.fuel hfuel
    · intro _ w₃ _
      refine (settleRevocation_healthy entry.saltedID).imp ?_
      exact fun _ w₄ h => h.2
  refine Finishes.imp (findRevoked_bare hwalk ?_ hflag₁ ?_ ?_) ?_
  · exact hfuel
  · exact hleased
  · intro stored hstored
    refine (hsettled stored hstored).resolve_right fun hfree => hleased ?_
    intro entry hentry
    cases hstored.symm.trans hentry
    exact .inl hfree
  · rintro found w₂ ⟨rfl, hgone⟩
    exact hgone

end

end retries

theorem settleRevocation_flag {id : SaltedID} {w : World} (ret : Except GoError Unit)
    (hsettled : ∀ stored ∈ w.state.entries.find id, Settled stored) :
    Finishes anyOutcome (settleRevocation id ret) w (fun _ _ => True)
      (fun _ w' => w'.state.pending (.salted id) = some false ∧
        ∀ stored ∈ w'.state.entries.find id, Settled stored) := by
  cases ret with
  | error e =>
    simp only [settleRevocation, finishes_bind, finishes_capture, finishes_resume, outcomePost,
      finishes_anyOutcome, effect, TokenOp.stored, Bool.false_eq_true, false_implies,
      true_and, forall_const, finishes_throw]
    exact ⟨Function.update_self .., hsettled⟩
  | ok value =>
    simp only [settleRevocation, finishes_bind, finishes_capture, finishes_resume, outcomePost,
      wrapErr, finishes_mapError, finishes_anyOutcome, effect, TokenOp.stored,
      Bool.false_eq_true, false_implies, true_and, forall_const, finishes_throw, and_true]
    exact ⟨Function.update_self .., hsettled⟩

def revocation (env : Nat → StepEnv) (s : TokenState) (id : SaltedID) (skipOrphan : Bool)
    (depth fuel : Nat) : Except GoError Unit × World :=
  runFrom exec env (revokeInternal (revokeTree fuel depth) id skipOrphan).run ⟨s, []⟩

/-- If the call fails, a later call does not return at once, and with reliable storage it removes
the token. -/
def Retryable (env : Nat → StepEnv) (s : TokenState) (id : SaltedID) (skipOrphan : Bool)
    (depth fuel : Nat) : Prop :=
  ∀ e, (revocation env s id skipOrphan depth fuel).1 = .error e →
    (revocation env s id skipOrphan depth fuel).2.state.pending (.salted id) ≠ some true ∧
    ∀ (env' : Nat → StepEnv) (skipOrphan' : Bool) (depth' fuel' : Nat),
      (∀ n, (env' n).fails = false) → 2 ≤ depth' →
      2 * (revocation env s id skipOrphan depth fuel).2.state.parents.length + 1 ≤ fuel' →
      (revocation env' (revocation env s id skipOrphan depth fuel).2.state id skipOrphan' depth'
        fuel').2.state.entries.find id = none

def flagged (s : TokenState) (id : SaltedID) : World :=
  ⟨{ s with pending := Function.update s.pending (.salted id) (some true) },
    [.loadOrStorePending (.salted id)]⟩

/-- No operation fails before the function that takes the flag back is deferred. -/
def SucceedsBeforeDefer (env : Nat → StepEnv) (s : TokenState) (id : SaltedID)
    (depth fuel : Nat) : Prop :=
  RunMeets exec env stepSucceeds (findRevoked (revokeTree fuel depth) id).run (flagged s id, 1)

theorem healthy_of_succeeds (env : StepEnv) (op : TokenOp) (w : World) (h : stepSucceeds env op) :
    healthyStep op w (exec env op w).1 (exec env op w).2 := by
  refine ⟨⟨env.now, false⟩, rfl, ?_⟩
  rw [stepSucceeds] at h
  simp [exec, h]

section calls

variable {env : Nat → StepEnv} {s : TokenState} {id : SaltedID} {skipOrphan : Bool}
  {depth fuel : Nat}

theorem revocation_flagged (hfirst : s.pending (.salted id) = none) :
    revocation env s id skipOrphan depth fuel =
      (((revokeFlagged (revokeTree fuel depth) id skipOrphan).run.run (numbered exec env)
          (flagged s id, 1)).1,
        ((revokeFlagged (revokeTree fuel depth) id skipOrphan).run.run (numbered exec env)
          (flagged s id, 1)).2.1) := by
  have hload : (perform (.loadOrStorePending (.salted id))).run.run (numbered exec env)
      (⟨s, []⟩, 0) = (.ok none, (flagged s id, 1)) := by
    have hstep : exec (env 0) (.loadOrStorePending (.salted id)) ⟨s, []⟩ =
        (.ok none, flagged s id) := by
      simp [exec, TokenOp.stored, effect, hfirst, flagged]
    change ((exec (env 0) _ _).1, ((exec (env 0) _ _).2, 1)) = _
    rw [hstep]
  rw [revocation, runFrom, revokeInternal, run_bind_ok (congrArg Prod.fst hload), hload]

theorem findRevoked_flag (env : Nat → StepEnv) (s : TokenState) (id : SaltedID)
    (depth fuel : Nat) :
    outcomePost
      (fun _ w => w.state.pending (.salted id) = some true ∧
        SucceedsBeforeDefer env s id depth fuel)
      (fun _ w => w.state.pending (.salted id) = some true)
      ((findRevoked (revokeTree fuel depth) id).run.run (numbered exec env) (flagged s id, 1)).1
      ((findRevoked (revokeTree fuel depth) id).run.run (numbered exec env)
        (flagged s id, 1)).2.1 := by
  have hgood : ∀ entry, persistNeeded entry = false → True := fun _ _ => trivial
  have hstart : Flagged id (fun _ => True) (flagged s id) :=
    ⟨Function.update_self .., fun _ _ => trivial⟩
  have hrun := Ends.run_watched env (steady_findRevoked hgood
    (steady_revokeTree hgood fuel depth) id (flagged s id, True) ⟨hstart, trivial⟩) 1
  cases hresult : ((findRevoked (revokeTree fuel depth) id).run.run (numbered exec env)
      (flagged s id, 1)).1 with
  | error e =>
    rw [hresult] at hrun
    exact hrun.flag
  | ok found =>
    rw [hresult] at hrun
    exact ⟨hrun.1.1.flag, hrun.1.2.2⟩

theorem revocation_fails_early (skipOrphan : Bool) (hfirst : s.pending (.salted id) = none)
    (h : ¬ SucceedsBeforeDefer env s id depth fuel) :
    ∃ e, (revocation env s id skipOrphan depth fuel).1 = .error e ∧
      (revocation env s id skipOrphan depth fuel).2.state.pending (.salted id) = some true := by
  have hflag := findRevoked_flag env s id depth fuel
  rw [revocation_flagged hfirst, revokeFlagged]
  cases hresult : ((findRevoked (revokeTree fuel depth) id).run.run (numbered exec env)
      (flagged s id, 1)).1 with
  | error e =>
    rw [hresult] at hflag
    rw [run_bind_error hresult]
    exact ⟨e, rfl, hflag⟩
  | ok found =>
    rw [hresult] at hflag
    exact absurd hflag.2 h

theorem removal_flag (depth fuel : Nat) (skipOrphan : Bool) (entry : TokenEntry) {w : World}
    (hw : Flagged id Settled w) :
    Finishes anyOutcome (do
        let ret ← capture (removeReferences (revokeTree fuel depth) id entry skipOrphan)
        settleRevocation id ret) w (fun _ _ => True)
      (fun _ w' => w'.state.pending (.salted id) = some false ∧
        ∀ stored ∈ w'.state.entries.find id, Settled stored) := by
  have hgood : ∀ entry, persistNeeded entry = false → Settled entry := fun _ h => .inl h
  have hrefs := steady_removeReferences hgood (steady_revokeTree hgood fuel depth) id entry
    skipOrphan (w, True) ⟨hw, trivial⟩
  have hkept : Finishes anyOutcome
      (removeReferences (revokeTree fuel depth) id entry skipOrphan) w
      (fun _ w' => Flagged id Settled w') fun _ w' => Flagged id Settled w' :=
    Finishes.unwatched (hrefs.imp fun _ _ h => h.1.1)
  rw [finishes_bind, finishes_capture]
  exact hkept.mono (fun _ w' h => settleRevocation_flag (.ok ()) h.entry)
    fun e w' h => settleRevocation_flag (.error e) h.entry

theorem revocation_fails_late (hfirst : s.pending (.salted id) = none) (hdepth : 2 ≤ depth)
    (hfuel : 2 * s.parents.length + 1 ≤ fuel) (h : SucceedsBeforeDefer env s id depth fuel)
    {e : GoError} (herror : (revocation env s id skipOrphan depth fuel).1 = .error e) :
    (revocation env s id skipOrphan depth fuel).2.state.pending (.salted id) = some false ∧
      ∀ stored ∈ (revocation env s id skipOrphan depth fuel).2.state.entries.find id,
        Settled stored := by
  obtain ⟨depth, rfl⟩ := Nat.exists_eq_add_of_le' hdepth
  obtain ⟨fuel, rfl⟩ : ∃ k, fuel = k + 1 := ⟨fuel - 1, by omega⟩
  have hnested : ¬ Leased (flagged s id).state id →
      NestedRuns (revokeTree (fuel + 1) (depth + 2)) Shrunk (flagged s id) id :=
    nestedRuns_shrunk (walkSound_revokeTree fuel depth) hfuel
  have hmarked := Ends.run_meets healthy_of_succeeds
    (findRevoked_healthy (shrunk_absorbs id) hnested) h
  have hflag := findRevoked_flag env s id (depth + 2) (fuel + 1)
  rw [revocation_flagged hfirst, revokeFlagged] at herror ⊢
  cases hresult : ((findRevoked (revokeTree (fuel + 1) (depth + 2)) id).run.run
      (numbered exec env) (flagged s id, 1)).1 with
  | error e =>
    rw [hresult] at hmarked
    exact hmarked.elim
  | ok found =>
    rw [hresult] at hmarked hflag
    rw [run_bind_ok hresult] at herror ⊢
    cases found with
    | none => cases herror
    | some entry =>
      have hany : ∀ n op w, anyStep op w (exec (env n) op w).1 (exec (env n) op w).2 :=
        fun n op w => ⟨env n, rfl⟩
      exact Finishes.run_error hany (removal_flag (depth + 2) (fuel + 1) skipOrphan entry
        ⟨hflag.1, hmarked.settled entry rfl⟩) _ herror

/-- A failed call can be retried iff nothing has failed before the function that takes the flag back
was deferred. -/
theorem retryable_iff_succeedsBeforeDefer (env : Nat → StepEnv) (s : TokenState) (id : SaltedID)
    (skipOrphan : Bool) (depth fuel : Nat) (hfirst : s.pending (.salted id) = none)
    (hdepth : 2 ≤ depth) (hfuel : 2 * s.parents.length + 1 ≤ fuel) :
    Retryable env s id skipOrphan depth fuel ↔ SucceedsBeforeDefer env s id depth fuel := by
  constructor
  · intro hretry
    by_contra hfails
    obtain ⟨e, herror, hflag⟩ := revocation_fails_early skipOrphan hfirst hfails
    exact (hretry e herror).1 hflag
  intro hsucceeds e herror
  obtain ⟨hflag, hsettled⟩ := revocation_fails_late hfirst hdepth hfuel hsucceeds herror
  refine ⟨by simp [hflag], ?_⟩
  intro env' skipOrphan' depth' fuel' henv' hdepth' hfuel'
  obtain ⟨depth', rfl⟩ := Nat.exists_eq_add_of_le' hdepth'
  obtain ⟨fuel', rfl⟩ : ∃ k, fuel' = k + 1 := ⟨fuel' - 1, by omega⟩
  have hremoves := revokeInternal_removes
    (w := ⟨(revocation env s id skipOrphan depth fuel).2.state, []⟩)
    (walkSound_revokeTree fuel' depth') hfuel' hflag hsettled skipOrphan'
  have hhealthy : ∀ n op w, healthyStep op w (exec (env' n) op w).1 (exec (env' n) op w).2 :=
    fun n op w => ⟨env' n, henv' n, rfl⟩
  obtain ⟨_, -, hgone⟩ := hremoves.runFrom_ok hhealthy
  exact hgone

end calls

def leasedToken : TokenEntry where
  id := ofString "t"
  path := ofString "auth/token/create"
  id_ne_nil := by decide
  namespace_root := rootNamespaceID_root
  cubbyhole_ne_nil := by decide
  path_clean := createPath_clean

def leasedStore : TokenState where
  entries := TokenTable.empty.put leasedToken
  leases := Function.update (fun _ => none) ⟨leasedToken.path, ⟨leasedToken.id⟩⟩
    (some ⟨leasedToken.id, 10⟩)

def failingRead : Nat → StepEnv
  | 1 => { fails := true }
  | _ => {}

theorem failed_lookup_not_retryable :
    ¬ Retryable failingRead leasedStore ⟨ofString "t"⟩ true 2 1 := by
  intro h
  exact (h _ rfl).1 rfl

def failingDestroyer : Nat → StepEnv
  | 11 => { fails := true }
  | _ => {}

theorem failed_destroyer_retryable :
    (revocation failingDestroyer leasedStore ⟨ofString "t"⟩ true 2 1).1 = .error storageFailed ∧
      Retryable failingDestroyer leasedStore ⟨ofString "t"⟩ true 2 1 := by
  refine ⟨rfl, (retryable_iff_succeedsBeforeDefer failingDestroyer leasedStore ⟨ofString "t"⟩ true
    2 1 rfl (by decide) (by decide)).mpr ?_⟩
  repeat' constructor

end VaultProofs.RevocationRetries
