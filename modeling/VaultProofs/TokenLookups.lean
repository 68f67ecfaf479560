import VaultProofs.HealthyRevocation
import VaultProofs.SharedPrograms

/-!
Lookups that find the tokens with their leases. Such a lookup only reads, apart from the upgrade of
an old entry.
-/

namespace VaultProofs.TokenLookups

open GoStrings ProgramOutcomes SharedPrograms TokenEffects TokenStore HealthyRevocation
open VaultEffects (GoError)

section lookups

variable {σ : Type} {L : Logic tokens σ} {K F : σ → Prop} {revokeTree : GoString → TokenM Unit}

structure Reads (L : Logic tokens σ) (K F : σ → Prop) : Prop where
  rootNamespace : Keeps L K F (fun _ => True) (namespaceByID rootNamespaceID)
  saltID : ∀ id, Keeps L K F (fun key => key = ⟨id⟩) (saltID id)
  timeNow : Keeps L K F (fun _ => True) (perform .timeNow)

/-- The lease of a stored token is there if it needs one, and its upgrade keeps `K`. -/
structure Upkept (L : Logic tokens σ) (K F : σ → Prop) (stored : TokenEntry) : Prop where
  lease : ¬ needsNoLease stored →
    Keeps L K F (fun lease => lease ≠ none) (perform (.loadLease ⟨stored.path, stored.saltedID⟩))
  put : persistNeeded stored = true →
    Keeps L K F (fun _ => True) (perform (.putEntry (upgraded stored)))

variable (hreads : Reads L K F)

include hreads

theorem keeps_store {entry : TokenEntry} (hns : entry.namespaceID = rootNamespaceID)
    (hput : Keeps L K F (fun _ => True) (perform (.putEntry entry))) :
    Keeps L K F (fun _ => True) (store entry) := by
  rw [store, storeCommon, hns]
  refine hreads.rootNamespace.then fun _ => (hreads.saltID _).bind fun saltedID _ => ?_
  have hindex : Keeps L K F (fun _ => True)
      (writeParentIndex (fun _ => return none) entry saltedID false) :=
    keeps_pure trivial
  exact hindex.then fun _ => hput.mapError _

variable {stored : TokenEntry}

theorem keeps_persistUpgrade (h : Upkept L K F stored) :
    Keeps L K F (fun _ => True) (persistUpgrade stored) := by
  rw [persistUpgrade]
  split
  · rename_i hneeded
    exact (keeps_store hreads rfl (h.put hneeded)).mapError _
  · exact keeps_pure trivial

theorem keeps_checkLease (h : Upkept L K F stored) (hbare : ¬ needsNoLease stored)
    (tainted : Bool) :
    Keeps L K F (fun found => (∀ te ∈ found, te = upgraded stored) ∧
        (tainted = true → found = some (upgraded stored)))
      (checkLease revokeTree (upgraded stored) tainted) := by
  have hfetch : Keeps L K F (fun lease => lease ≠ none)
      (fetchLeaseTimesByToken (upgraded stored)) := by
    refine hreads.rootNamespace.then fun _ => (hreads.saltID _).bind ?_
    rintro _ rfl
    exact h.lease hbare
  refine (hfetch.mapError _).bind ?_
  rintro (_ | lease) hlease
  · exact absurd rfl hlease
  refine hreads.timeNow.then fun now => keeps_pure ⟨?_, ?_⟩
  · split
    · simp
    · simp
  · rintro rfl
    simp

theorem keeps_lookupStored (h : Upkept L K F stored) (tainted : Bool) :
    Keeps L K F (fun found => (∀ te ∈ found, te = upgraded stored) ∧
        (tainted = true → found = some (upgraded stored)))
      (lookupStored revokeTree stored tainted) := by
  rw [lookupStored]
  split
  · exact (keeps_persistUpgrade hreads h).then fun _ => keeps_pure (by simp)
  split
  · exact keeps_pure (by simp)
  split
  · exact keeps_pure (by simp)
  rename_i hroot hent
  have hbare : ¬ needsNoLease stored :=
    fun hfree => hfree.elim hroot fun htype => hent (upgraded_type_ent.mpr htype)
  refine (keeps_checkLease hreads h hbare tainted).bind fun found hfound => ?_
  exact (keeps_persistUpgrade hreads h).then fun _ => keeps_pure hfound

omit hreads in
/-- What a lookup returns comes from the entry it has read; `M` is known from the read on. -/
theorem finishes_lookupSalted {key : SaltedID} {good : Option TokenEntry → Prop}
    {M : TokenEntry → σ → Prop} {s : σ}
    (hget : Finishes L (perform (.getEntry key)) s
      (fun cell s' => K s' ∧ good cell ∧ ∀ stored ∈ cell, M stored s') fun _ => F)
    (hback : ∀ stored s, M stored s → K s)
    (hreads : ∀ stored, good (some stored) → Reads L (M stored) F)
    (hgood : ∀ stored, good (some stored) → Upkept L (M stored) F stored) (tainted : Bool) :
    Finishes L (lookupSalted revokeTree key tainted) s
      (fun found s' => K s' ∧ ∃ cell, good cell ∧ (∀ stored ∈ cell, M stored s') ∧
        (∀ te ∈ found, ∃ stored ∈ cell, te = upgraded stored) ∧
        (tainted = true → found = cell.map upgraded))
      fun _ => F := by
  refine (finishes_mapError.mpr hget).bind ?_
  rintro (_ | stored) s' ⟨hs', hcell, hstored⟩
  · exact ⟨hs', none, hcell, by simp, by simp, by simp⟩
  have hfound : Keeps L (M stored) F (fun found => (∀ te ∈ found, te = upgraded stored) ∧
        (tainted = true → found = some (upgraded stored)))
      (if stored.numUses < 0 ∧ tainted = false then pure none
        else lookupStored revokeTree stored tainted) := by
    refine keeps_ite (fun hused => ?_) fun _ => ?_
    · exact keeps_pure ⟨by simp, by simp [hused.2]⟩
    · exact keeps_lookupStored (hreads stored hcell) (hgood stored hcell) tainted
  refine (hfound s' (hstored stored rfl)).imp ?_
  rintro found s'' ⟨hs'', hfound, htainted⟩
  refine ⟨hback stored s'' hs'', some stored, hcell, ?_, ?_, htainted⟩
  · rintro _ ⟨⟩
    exact hs''
  · exact fun te hte => ⟨stored, rfl, hfound te hte⟩

omit hreads in
theorem keeps_lookup {id : GoString} {Q : Option TokenEntry → Prop}
    (hsalt : Keeps L K K (fun key => key = ⟨id⟩) (saltID id))
    (hlock : Keeps L K K (fun _ => True) (perform (.rLock id)))
    (hunlock : Keeps L K K (fun _ => True) (perform (.rUnlock id)))
    (hlookup : Keeps L K K Q (lookupSalted revokeTree ⟨id⟩ false)) :
    Keeps L K K (fun _ => True) (lookup revokeTree id) := by
  refine keeps_ite (fun _ => keeps_throw fun _ h => h) fun _ => ?_
  refine hlock.then fun _ => ?_
  have hinternal : Keeps L K K (fun _ => True) (lookupInternal revokeTree id false) := by
    refine hsalt.bind ?_
    rintro _ rfl
    exact hlookup.weaken fun _ _ => trivial
  refine hinternal.attempt.then fun result => hunlock.then fun _ => ?_
  exact keeps_resume (fun _ _ => trivial) fun _ h => h

omit hreads in
/-- Creating a token: `K` is known until the accessor is written, `K'` from then on. -/
theorem finishes_create {K K' : σ → Prop} {entry : TokenEntry} (userSelectedID : Bool)
    (hns : Keeps L K K (fun _ => True) (namespaceByID entry.namespaceID))
    (hlookup : Keeps L K K (fun _ => True) (lookupInternal revokeTree entry.id true))
    (haccessor : ∀ s, K s →
      Finishes L (createAccessor (created entry)) s (fun _ => K') fun _ _ => True)
    (hstore : ∀ s, K' s → Finishes L (storeCommon (lookup revokeTree) (created entry) true) s
      (fun _ _ => True) fun _ _ => True) {s : σ} (hs : K s) :
    Finishes L (create revokeTree entry userSelectedID) s (fun _ _ => True) fun _ _ => True := by
  have hcustom : Keeps L K K (fun _ => True) (checkCustomID (created entry) userSelectedID) := by
    refine keeps_ite (fun _ => keeps_pure trivial) fun _ => ?_
    refine keeps_ite (fun _ => keeps_throw fun _ h => h) fun _ => ?_
    refine keeps_ite (fun _ => keeps_throw fun _ h => h) fun _ => ?_
    exact keeps_ite (fun _ => keeps_throw fun _ h => h) fun _ => keeps_pure trivial
  have hduplicate : Keeps L K K (fun _ => True)
      (checkDuplicate revokeTree (created entry) userSelectedID) := by
    refine keeps_ite (fun _ => ?_) fun _ => keeps_pure trivial
    refine hlookup.attempt.then ?_
    rintro (e | _ | te)
    · exact keeps_pure trivial
    · exact keeps_pure trivial
    · exact keeps_throw fun _ h => h
  refine (hns.lax hs).bind ?_
  rintro _ s₁ ⟨hs₁, -⟩
  refine (hcustom.lax hs₁).bind ?_
  rintro _ s₂ ⟨hs₂, -⟩
  refine (hduplicate.lax hs₂).bind ?_
  rintro _ s₃ ⟨hs₃, -⟩
  exact (haccessor s₃ hs₃).bind fun _ s₄ hs₄ => hstore s₄ hs₄

end lookups

variable {rely guar : World → World → Prop} {R : Outcomes tokens World} {K : World → Prop}
  {op : TokenOp}

theorem finishes_shared {ok : op.Result → World → Prop} {err : GoError → World → Prop}
    (hrely : ∀ w w₁, K w → rely w w₁ → K w₁)
    (hstep : ∀ w answer w', K w → R op w answer w' →
      guar w w' ∧ outcomePost ok err answer w') {w : World} (hw : K w) :
    Finishes (sharing rely guar R) (perform op) w ok err :=
  fun w₁ hw₁ answer w' hR => hstep w₁ answer w' (hrely w w₁ hw hw₁) hR

theorem keeps_shared {Q : op.Result → Prop} (hrely : ∀ w w₁, K w → rely w w₁ → K w₁)
    (hstep : ∀ w answer w', K w → R op w answer w' →
      guar w w' ∧ K w' ∧ ∀ value, answer = .ok value → Q value) :
    Keeps (sharing rely guar R) K K Q (perform op) := by
  intro w hw
  refine finishes_shared hrely ?_ hw
  intro w answer w' hw hR
  obtain ⟨hguar, hw', hvalue⟩ := hstep w answer w' hw hR
  refine ⟨hguar, ?_⟩
  cases answer with
  | error e => exact hw'
  | ok value => exact ⟨hw', hvalue value rfl⟩

end VaultProofs.TokenLookups
