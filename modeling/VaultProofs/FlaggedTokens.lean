import VaultProofs.HealthyRevocation

/-!
The token store with storage that may fail, while the deletion of a token is pending.
-/

namespace VaultProofs.FlaggedTokens

open GoStrings ProgramOutcomes TokenEffects TokenStore HealthyRevocation
open VaultEffects (GoError)

def stepSucceeds (env : StepEnv) (op : TokenOp) : Prop :=
  (env.fails && op.stored) = false

/-- The deletion of the token is pending; if it is stored, its entry is in `good`. -/
structure Flagged (id : SaltedID) (good : TokenEntry → Prop) (w : World) : Prop where
  flag : w.state.pending (.salted id) = some true
  entry : ∀ entry ∈ w.state.entries.find id, good entry

def Harmless (id : SaltedID) (good : TokenEntry → Prop) : TokenOp → Prop
  | .putEntry entry => good entry
  | .storePending key _ => key ≠ .salted id
  | .deletePending key => key ≠ .salted id
  | _ => True

section steady

variable {id : SaltedID} {good : TokenEntry → Prop} {α β : Type} {Q : α → Prop} {P : β → Prop}

variable {op : TokenOp}

theorem Flagged.exec (hop : Harmless id good op) {w : World} (h : Flagged id good w)
    (env : StepEnv) : Flagged id good (exec env op w).2 := by
  rw [TokenEffects.exec]
  split
  · exact ⟨h.flag, h.entry⟩
  cases op with
  | putEntry entry =>
    refine ⟨h.flag, ?_⟩
    intro found hfound
    by_cases hid : id = entry.saltedID
    · subst hid
      cases (TokenTable.find_put_self ..).symm.trans hfound
      exact hop
    · exact h.entry found ((TokenTable.find_put_of_ne _ hid).symm.trans hfound)
  | deleteEntry key =>
    refine ⟨h.flag, ?_⟩
    intro found hfound
    by_cases hid : id = key
    · subst hid
      cases (TokenTable.find_delete_self ..).symm.trans hfound
    · exact h.entry found ((TokenTable.find_delete_of_ne _ hid).symm.trans hfound)
  | loadOrStorePending key =>
    refine ⟨?_, h.entry⟩
    by_cases hkey : PendingKey.salted id = key
    · subst hkey
      simp [effect, h.flag]
    · exact (Function.update_of_ne hkey ..).trans h.flag
  | storePending key value | deletePending key =>
    exact ⟨(Function.update_of_ne hop.symm ..).trans h.flag, h.entry⟩
  | _ => exact ⟨h.flag, h.entry⟩

/-- While the token is flagged the program keeps it so, and returns only values in `Q`, only if
nothing has failed. -/
def Steady (id : SaltedID) (good : TokenEntry → Prop) (Q : α → Prop) (x : TokenM α) : Prop :=
  Keeps (watched exec stepSucceeds) (fun s => Flagged id good s.1 ∧ s.2)
    (fun s => Flagged id good s.1) Q x

theorem steady_answer {Q : op.Result → Prop} (hop : Harmless id good op)
    (hQ : ∀ now w value, Flagged id good w → (effect now op w.state).1 = .ok value → Q value) :
    Steady id good Q (perform op) := by
  rintro s ⟨hs, hmet⟩ answer s' ⟨env, hexec, hmet'⟩
  have hkept := hs.exec hop env
  rw [hexec] at hkept
  cases answer with
  | error e => exact hkept
  | ok value =>
    rw [exec] at hexec
    split at hexec
    · cases hexec
    · rename_i hfails
      refine ⟨⟨hkept, hmet'.symm ▸ ⟨hmet, Bool.eq_false_iff.mpr hfails⟩⟩, ?_⟩
      exact hQ env.now s.1 value hs (congrArg Prod.fst hexec)

theorem steady_perform (hop : Harmless id good op) :
    Steady id good (fun _ => True) (perform op) :=
  steady_answer hop fun _ _ _ _ _ => trivial

theorem steady_pure {value : α} (h : Q value) : Steady id good Q (pure value : TokenM α) :=
  keeps_pure h

theorem steady_throw (e : GoError) : Steady id good Q (throw e : TokenM α) :=
  keeps_throw fun _ h => h.1

variable {x : TokenM α}

theorem Steady.bind {f : α → TokenM β} (hx : Steady id good Q x)
    (hf : ∀ value, Q value → Steady id good P (f value)) : Steady id good P (x >>= f) :=
  Keeps.bind hx hf

theorem steady_ite {c : Prop} [Decidable c] {x y : TokenM α} (hx : c → Steady id good Q x)
    (hy : ¬ c → Steady id good Q y) : Steady id good Q (if c then x else y) :=
  keeps_ite hx hy

theorem Steady.then {f : α → TokenM β} (hx : Steady id good (fun _ => True) x)
    (hf : ∀ value, Steady id good P (f value)) : Steady id good P (x >>= f) :=
  Keeps.then hx hf

theorem Steady.wrapErr (hx : Steady id good Q x) (context : String) :
    Steady id good Q (wrapErr context x) :=
  Keeps.mapError hx _

theorem steady_wrapped (hop : Harmless id good op) (context : String) :
    Steady id good (fun _ => True) (TokenStore.wrapErr context (perform op)) :=
  (steady_perform hop).wrapErr context

theorem steady_call {f : op.Result → TokenM β} (hop : Harmless id good op)
    (hf : ∀ value, Steady id good P (f value)) : Steady id good P (perform op >>= f) :=
  (steady_perform hop).then hf

theorem finishes_cleanup (hop : Harmless id good op) {f : op.Result → TokenM β}
    {ok : β → World × Prop → Prop} {s : World × Prop} (hs : Flagged id good s.1)
    (hf : ∀ value s', Flagged id good s'.1 →
      Finishes (watched exec stepSucceeds) (f value) s' ok fun _ s'' => Flagged id good s''.1) :
    Finishes (watched exec stepSucceeds) (perform op >>= f) s ok
      fun _ s' => Flagged id good s'.1 := by
  rintro answer s' ⟨env, hexec, -⟩
  have hkept := hs.exec hop env
  rw [hexec] at hkept
  cases answer with
  | error e => exact hkept
  | ok value => exact hf value s' hkept

end steady

variable {id : SaltedID} {good : TokenEntry → Prop}

theorem steady_store {entry : TokenEntry} (hentry : good entry) :
    Steady id good (fun _ => True) (store entry) := by
  refine steady_call trivial fun _ => ?_
  refine steady_call trivial fun saltedID => ?_
  have hindex : Steady id good (fun _ => True)
      (writeParentIndex (fun _ => return none) entry saltedID false) := by
    exact steady_pure trivial
  exact hindex.then fun _ => steady_wrapped (by exact hentry) _

variable (hgood : ∀ entry, persistNeeded entry = false → good entry)

include hgood in
theorem steady_persistUpgrade (stored : TokenEntry) :
    Steady id good (fun _ => True) (persistUpgrade stored) := by
  rw [persistUpgrade]
  split
  · exact (steady_store (hgood _ (persistNeeded_upgraded stored))).wrapErr _
  · exact steady_pure trivial

section nested

variable {revokeTree : GoString → TokenM Unit}
  (htree : ∀ token, Steady id good (fun _ => True) (revokeTree token))

include htree

theorem steady_revokeCommon (leaseID : LeaseID) (skipToken : Bool) :
    Steady id good (fun _ => True) (revokeCommon revokeTree leaseID skipToken) := by
  refine steady_call trivial ?_
  rintro (_ | lease)
  · exact steady_pure trivial
  · cases skipToken with
    | true => exact steady_perform trivial
    | false => exact ((htree lease.clientToken).wrapErr _).then fun _ => steady_perform trivial

theorem steady_revokeWithoutLease (entry : TokenEntry) :
    Steady id good (fun _ => True) (revokeWithoutLease revokeTree entry) := by
  refine steady_call trivial fun _ => ?_
  have hlease : Steady id good (fun _ => True) (createOrFetchRevocationLeaseByToken entry) := by
    refine steady_call trivial fun _ => steady_call trivial fun _ => ?_
    refine steady_call trivial ?_
    rintro (_ | lease)
    · refine steady_ite (fun _ => steady_throw _) fun _ => ?_
      refine steady_call trivial fun _ => steady_call trivial fun _ => ?_
      exact steady_pure trivial
    · exact steady_pure trivial
  exact hlease.then fun leaseID => steady_revokeCommon htree leaseID false

theorem steady_checkLease (entry : TokenEntry) (tainted : Bool) :
    Steady id good (fun found => ∀ te ∈ found, te = entry)
      (checkLease revokeTree entry tainted) := by
  have hfetch : Steady id good (fun _ => True) (fetchLeaseTimesByToken entry) := by
    refine steady_call trivial fun _ => steady_call trivial fun _ => ?_
    exact steady_perform trivial
  refine (hfetch.wrapErr _).then ?_
  rintro (_ | lease)
  · exact (steady_revokeWithoutLease htree entry).then fun _ => steady_pure (by simp)
  refine steady_call trivial fun now => steady_pure ?_
  split
  · simp
  · simp

include hgood

theorem steady_lookupStored (stored : TokenEntry) (tainted : Bool) :
    Steady id good (fun found => ∀ te ∈ found, persistNeeded te = false)
      (lookupStored revokeTree stored tainted) := by
  have hself : ∀ te ∈ some (upgraded stored), persistNeeded te = false := by
    intro te hte
    cases hte
    exact persistNeeded_upgraded stored
  rw [lookupStored]
  split
  · exact (steady_persistUpgrade hgood stored).then fun _ => steady_pure hself
  split
  · exact steady_pure hself
  split
  · exact steady_pure hself
  refine (steady_checkLease htree (upgraded stored) tainted).bind fun found hfound => ?_
  refine (steady_persistUpgrade hgood stored).then fun _ => steady_pure ?_
  intro te hte
  rw [hfound te hte]
  exact persistNeeded_upgraded stored

theorem steady_lookupSalted (key : SaltedID) (tainted : Bool) :
    Steady id good (fun found => ∀ te ∈ found, persistNeeded te = false)
      (lookupSalted revokeTree key tainted) := by
  refine Steady.then (steady_wrapped (by trivial) _) ?_
  rintro (_ | stored)
  · exact steady_pure (by simp)
  · refine steady_ite (fun _ => steady_pure (by simp)) fun _ => ?_
    exact steady_lookupStored hgood htree stored tainted

omit hgood in
theorem steady_revokeByToken (token namespaceID path : GoString) :
    Steady id good (fun _ => True) (revokeByToken revokeTree token namespaceID path) := by
  refine steady_call trivial fun _ => steady_call trivial fun _ => ?_
  refine Steady.then (steady_wrapped (by trivial) _) fun _ => ?_
  refine steady_ite (fun _ => steady_pure trivial) fun _ => ?_
  exact steady_call trivial fun _ => steady_revokeCommon htree _ true

theorem steady_orphanChild (child : SaltedID) :
    Steady id good (fun _ => True) (orphanChild revokeTree child) := by
  refine ((steady_lookupSalted hgood htree child true).wrapErr _).bind ?_
  rintro (_ | entry) hfound
  · exact steady_wrapped (by trivial) _
  refine steady_call trivial fun _ => ?_
  have hstored : good (orphaned entry) := hgood _ (hfound entry rfl)
  refine Keeps.capture_bind (steady_store hstored) (fun _ _ => ?_) fun e s hs => ?_
  · refine steady_call trivial fun _ => ?_
    refine Steady.then (Steady.wrapErr (steady_pure trivial) _) fun _ => ?_
    exact steady_wrapped (by trivial) _
  · exact finishes_cleanup (by trivial) hs fun _ s' hs' => hs'

theorem steady_orphanChildren (children : List SaltedID) :
    Steady id good (fun _ => True) (orphanChildren revokeTree children) := by
  induction children with
  | nil => exact steady_pure trivial
  | cons child rest ih => exact (steady_orphanChild hgood htree child).then fun _ => ih

theorem steady_findRevoked (token : SaltedID) :
    Steady id good (fun _ => True) (findRevoked revokeTree token) := by
  refine (steady_lookupSalted hgood htree token true).bind ?_
  rintro (_ | found) hfound
  · exact steady_pure trivial
  have hmark : Steady id good (fun _ => True) (markRevoked found) := by
    rw [markRevoked]
    split
    · exact steady_pure trivial
    have hstored : good (marked found) := hgood _ (hfound found rfl)
    refine Keeps.capture_bind (steady_store hstored) (fun _ _ => ?_) fun e s hs => ?_
    · exact steady_pure trivial
    · exact finishes_cleanup (by exact fun h => by cases h) hs fun _ s' hs' => hs'
  refine hmark.then fun entry => steady_call trivial fun _ => ?_
  exact steady_pure trivial

theorem steady_removeReferences (token : SaltedID) (entry : TokenEntry) (skipOrphan : Bool) :
    Steady id good (fun _ => True) (removeReferences revokeTree token entry skipOrphan) := by
  have hcubbyhole : Steady id good (fun _ => True) (destroyCubbyhole entry) := by
    rw [destroyCubbyhole]
    split
    · exact steady_call trivial fun _ => steady_perform trivial
    split
    · exact steady_throw _
    · exact steady_perform trivial
  have hparent : Steady id good (fun _ => True) (clearParentIndex token entry) := by
    rw [clearParentIndex]
    split
    · exact steady_pure trivial
    · exact steady_call trivial fun _ => steady_wrapped (by trivial) _
  have haccessor : Steady id good (fun _ => True) (clearAccessor entry) := by
    rw [clearAccessor]
    split
    · exact steady_pure trivial
    · exact steady_call trivial fun _ => steady_wrapped (by trivial) _
  refine hcubbyhole.then fun _ => ?_
  refine (steady_revokeByToken htree entry.id entry.namespaceID entry.path).then fun _ => ?_
  refine hparent.then fun _ => haccessor.then fun _ => ?_
  cases skipOrphan with
  | true => exact steady_pure trivial
  | false =>
    refine Steady.then (steady_wrapped (by trivial) _) fun children => ?_
    exact steady_orphanChildren hgood htree children

theorem steady_revokeFlagged {token : SaltedID} (htoken : token ≠ id) (skipOrphan : Bool) :
    Steady id good (fun _ => True) (revokeFlagged revokeTree token skipOrphan) := by
  have hkey : PendingKey.salted token ≠ .salted id := fun h => htoken (PendingKey.salted.inj h)
  refine (steady_findRevoked hgood htree token).then ?_
  rintro (_ | entry)
  · exact steady_pure trivial
  refine Keeps.capture_bind (steady_removeReferences hgood htree token entry skipOrphan)
    (fun _ _ => ?_) fun e s hs => ?_
  · have hdelete : Steady id good (fun _ => True) (do
        resume (.ok ())
        wrapErr "failed to delete entry" (perform (.deleteEntry token))) :=
      Steady.then (steady_pure trivial) fun _ => steady_wrapped (by trivial) _
    refine Keeps.capture_bind hdelete (fun _ _ => ?_) fun e s hs => ?_
    · exact steady_perform hkey
    · exact finishes_cleanup (by exact hkey) hs fun _ s' hs' => hs'
  · exact finishes_cleanup (by exact hkey) hs fun _ s' hs' => hs'

theorem steady_revokeInternal (token : SaltedID) (skipOrphan : Bool) :
    Steady id good (fun _ => True) (revokeInternal revokeTree token skipOrphan) := by
  have hload : Steady id good (fun state => token = id → state = some true)
      (perform (.loadOrStorePending (.salted token))) := by
    refine steady_answer trivial ?_
    rintro now w state hw hstate rfl
    cases hstate
    exact hw.flag
  refine hload.bind ?_
  rintro (_ | _ | _) hstate
  · exact steady_revokeFlagged hgood htree (fun h => by cases hstate h) skipOrphan
  · exact steady_revokeFlagged hgood htree (fun h => by cases hstate h) skipOrphan
  · exact steady_pure trivial

theorem steady_revokeTreeLoop (fuel : Nat) (dfs seenIDs : List SaltedID) :
    Steady id good (fun _ => True) (revokeTreeLoop revokeTree fuel dfs seenIDs) := by
  have hunseen : ∀ token seenIDs children,
      Steady id good (fun _ => True) (unseenChildren token seenIDs children) := by
    intro token seenIDs children
    induction children with
    | nil => exact steady_pure trivial
    | cons child rest ih =>
      rw [unseenChildren]
      split
      · exact Steady.then (steady_wrapped (by trivial) _) fun _ => ih
      · exact ih.then fun _ => steady_pure trivial
  induction fuel generalizing dfs seenIDs with
  | zero => exact steady_throw _
  | succ fuel ih =>
    cases dfs with
    | nil => exact steady_pure trivial
    | cons token dfs =>
      refine Steady.then (steady_wrapped (by trivial) _) fun childrenRaw => ?_
      refine (hunseen token (token :: seenIDs) childrenRaw).then fun children => ?_
      refine steady_ite (fun _ => ?_) fun _ => ih _ _
      refine ((steady_revokeInternal hgood htree token true).wrapErr _).then fun _ => ?_
      exact steady_ite (fun _ => steady_pure trivial) fun _ => ih dfs _

theorem steady_revokeTreeInternal (fuel : Nat) (token : SaltedID) :
    Steady id good (fun _ => True) (revokeTreeInternal revokeTree fuel token) := by
  refine (steady_lookupSalted hgood htree token true).bind ?_
  rintro (_ | te) _
  · exact steady_revokeTreeLoop hgood htree fuel _ _
  · exact steady_call trivial fun _ => steady_revokeTreeLoop hgood htree fuel _ _

end nested

include hgood in
theorem steady_revokeTree (fuel depth : Nat) (token : GoString) :
    Steady id good (fun _ => True) (revokeTree fuel depth token) := by
  induction depth generalizing token with
  | zero => exact steady_throw _
  | succ depth ih =>
    rw [revokeTree]
    split
    · exact steady_throw _
    · exact steady_call trivial fun _ => steady_revokeTreeInternal hgood ih fuel _

end VaultProofs.FlaggedTokens
