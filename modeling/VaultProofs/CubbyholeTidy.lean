import VaultProofs.CubbyholeMoves

/-!
The tidy among calls that create tokens and write cubbyholes. It lists the accessors first and the
cubbyholes later.
-/

namespace VaultProofs.CubbyholeTidy

open GoStrings ProgramOutcomes SharedPrograms TokenEffects TokenStore TokenLookups TokenTidy
open CubbyholeMoves

structure TidyMoves (known : TokenEntry → Prop) (w w' : World) : Prop where
  sound : Sound known w → Sound known w'
  spares : ∀ te, Spares known te w w'
  data : KeepsData known w w'

def tidyStep : Outcomes tokens World := fun op w answer w' =>
  healthyStep op w answer w' ∧ LeaseFound w.state op

def tidyLogic (known : TokenEntry → Prop) : Logic tokens World :=
  sharing (OthersMove known) (TidyMoves known) tidyStep

variable {known : TokenEntry → Prop}

theorem tidyMoves_of_quiet {w w' : World} (h : Quiet w w') : TidyMoves known w w' :=
  ⟨h.sound, h.spares, h.keepsData⟩

/-- Once the accessors are listed, the tidy may remove accessors and cubbyholes. -/
theorem tidyMoves_of_begun {w : World} {op : TokenOp} {state : TokenState} (hw : Sound known w)
    (hbegun : Begun ⟨state, op :: w.log⟩) (hentries : state.entries = w.state.entries)
    (hitems : ∀ item ∈ state.cubbyholes, item ∈ w.state.cubbyholes)
    (hdata : KeepsData known w ⟨state, op :: w.log⟩) :
    Sound known ⟨state, op :: w.log⟩ ∧ TidyMoves known w ⟨state, op :: w.log⟩ := by
  have hsound : Sound known ⟨state, op :: w.log⟩ := by
    refine ⟨?_, fun item hitem => ?_, absurd hbegun⟩
    · rw [hentries]
      exact hw.entries
    · rw [hentries]
      exact hw.owned item (hitems item hitem)
  refine ⟨hsound, fun _ => hsound, fun te => ⟨fun _ => hsound, ?_, ?_, fun _ => hbegun, ?_⟩, hdata⟩
  · rw [hentries]
    exact entries_same
  · rw [hentries]
    exact fun h => h
  · exact absurd hbegun

theorem tidyMoves_of_begun_same {w : World} {op : TokenOp} {state : TokenState}
    (hw : Sound known w) (hbegun : Begun ⟨state, op :: w.log⟩)
    (hentries : state.entries = w.state.entries)
    (hdata : state.cubbyholes = w.state.cubbyholes) :
    Sound known ⟨state, op :: w.log⟩ ∧ TidyMoves known w ⟨state, op :: w.log⟩ :=
  tidyMoves_of_begun hw hbegun hentries (fun _ h => hdata ▸ h) (keepsData_cons hdata)

def Stable (known : TokenEntry → Prop) (K : World → Prop) : Prop :=
  ∀ w w', OthersMove known w w' → K w → K w'

section operations

variable {K F : World → Prop} (hK : Stable known K)

include hK

theorem tidy_quiet {op : TokenOp} {Q : op.Result → Prop}
    (hquiet : ∀ w answer w', K w → anyStep op w answer w' → Quiet w w')
    (hanswer : ∀ w now, K w → LeaseFound w.state op →
      ∃ value, (effect now op w.state).1 = .ok value ∧ Q value) :
    Keeps (tidyLogic known) K F Q (perform op) := by
  intro w hw
  refine finishes_shared (fun w w₁ hw hrely => hK w w₁ hrely hw) ?_ hw
  rintro w answer w' hw ⟨hstep, hlease⟩
  have hmove : Quiet w w' := by
    obtain ⟨env, -, hexec⟩ := hstep
    exact hquiet w answer w' hw ⟨env, hexec⟩
  obtain ⟨now, rfl, rfl⟩ := healthyStep_iff.mp hstep
  obtain ⟨value, hvalue, hQ⟩ := hanswer w now hw hlease
  rw [hvalue]
  exact ⟨tidyMoves_of_quiet hmove, hK _ _ hmove.othersMove hw, hQ⟩

theorem tidy_passive {op : TokenOp}
    (hanswer : ∀ now s, ∃ value, (effect now op s).1 = .ok value := by exact fun _ _ => ⟨_, rfl⟩)
    (hop : Passive op := by simp [Passive, effect]) :
    Keeps (tidyLogic known) K F (fun _ => True) (perform op) := by
  refine tidy_quiet hK (fun _ _ _ _ hstep => quiet_of_passive hstep hop) ?_
  intro w now _ _
  obtain ⟨value, hvalue⟩ := hanswer now w.state
  exact ⟨value, hvalue, trivial⟩

theorem tidy_saltID (id : GoString) :
    Keeps (tidyLogic known) K F (fun key => key = ⟨id⟩) (saltID id) :=
  tidy_quiet hK (fun _ _ _ _ hstep => quiet_of_passive hstep)
    fun _ _ _ _ => ⟨⟨id⟩, rfl, rfl⟩

theorem tidy_reads : Reads (tidyLogic known) K F where
  rootNamespace := tidy_passive hK fun _ _ => ⟨(), by simp [effect]⟩
  saltID := tidy_saltID hK
  timeNow := tidy_passive hK

end operations

def StoredAs (stored : TokenEntry) (w : World) : Prop :=
  ∃ e, w.state.entries.find stored.saltedID = some e ∧ Alike e stored

theorem stable_storedAs (stored : TokenEntry) : Stable known (StoredAs stored) := by
  rintro w w' hmove ⟨e, hfind, halike⟩
  obtain ⟨e', hfind', halike'⟩ := hmove.entries _ e hfind
  exact ⟨e', hfind', halike'.symm.trans halike⟩

theorem Stable.and {K K' : World → Prop} (hK : Stable known K) (hK' : Stable known K') :
    Stable known fun w => K w ∧ K' w :=
  fun w w' hmove h => ⟨hK w w' hmove h.1, hK' w w' hmove h.2⟩

theorem tidy_put {K F : World → Prop} (hK : Stable known K) {stored entry : TokenEntry}
    (hstored : ∀ w, K w → StoredAs stored w) (halike : Alike stored entry) :
    Keeps (tidyLogic known) K F (fun _ => True) (perform (.putEntry entry)) := by
  refine tidy_quiet hK ?_ fun _ _ _ _ => ⟨(), rfl, trivial⟩
  intro w answer w' hw hstep
  obtain ⟨e, hfind, he⟩ := hstored w hw
  rw [← halike.saltedID] at hfind
  exact quiet_put_step hfind (he.trans halike) hstep

/-- The tokens `P` stored when the accessors were listed still are, with their accessors. -/
structure Snap (known : TokenEntry → Prop) (P : SaltedID → Option TokenEntry) (w : World) :
    Prop where
  sound : Sound known w
  begun : Begun w
  stored : ∀ key e, P key = some e → ∃ e', w.state.entries.find key = some e' ∧ Alike e e'
  accessor : ∀ key e, P key = some e →
    ∃ record, w.state.accessors.lookup ⟨e.accessor⟩ = some record ∧ tokenOf record = e.id

abbrev Tidies {α : Type} (known : TokenEntry → Prop) (P : SaltedID → Option TokenEntry)
    (F : World → Prop) (p : TokenM α) : Prop :=
  Keeps (tidyLogic known) (Snap known P) F (fun _ => True) p

variable {P : SaltedID → Option TokenEntry}

theorem stable_snap : Stable known (Snap known P) := by
  intro w w' hmove hw
  refine ⟨hmove.sound hw.sound, hmove.begun.mpr hw.begun, ?_, ?_⟩
  · intro key e he
    obtain ⟨e', hfind, halike⟩ := hw.stored key e he
    obtain ⟨e'', hfind', halike'⟩ := hmove.entries key e' hfind
    exact ⟨e'', hfind', halike.trans halike'⟩
  intro key e he
  obtain ⟨e', hfind, halike⟩ := hw.stored key e he
  rw [← halike.accessor, hmove.accessors key e' hfind, halike.accessor]
  exact hw.accessor key e he

variable {revokeTree : GoString → TokenM Unit} {F : World → Prop}

variable {w : World}

theorem tidy_lookupSalted (key : SaltedID) (hw : Snap known P w) :
    Finishes (tidyLogic known) (lookupSalted revokeTree key true) w
      (fun found w' => Snap known P w' ∧
        (∀ e, P key = some e → ∃ te ∈ found, Alike e te) ∧
        ∀ te ∈ found, te.saltedID = key ∧ te.namespaceID = rootNamespaceID ∧ StoredAs te w')
      fun _ => F := by
  have hget : Finishes (tidyLogic known) (perform (.getEntry key)) w
      (fun cell w' => Snap known P w' ∧ ((∀ e, P key = some e → ∃ e' ∈ cell, Alike e e') ∧
          ∀ stored ∈ cell, stored.saltedID = key) ∧
        ∀ stored ∈ cell, Snap known P w' ∧ StoredAs stored w') fun _ => F := by
    refine finishes_shared (fun w w₁ hw hrely => stable_snap w w₁ hrely hw) ?_ hw
    rintro w answer w' hw ⟨hstep, -⟩
    have hmove : Quiet w w' := by
      obtain ⟨env, -, hexec⟩ := hstep
      exact quiet_of_passive ⟨env, hexec⟩
    have hw' := stable_snap _ _ hmove.othersMove hw
    obtain ⟨now, rfl, rfl⟩ := healthyStep_iff.mp hstep
    have hkey : ∀ stored, w.state.entries.find key = some stored → stored.saltedID = key :=
      fun stored hstored => (w.state.entries.keyed key stored hstored).symm
    refine ⟨tidyMoves_of_quiet hmove, hw', ⟨hw.stored key, hkey⟩, ?_⟩
    intro stored hstored
    refine ⟨hw', stored, ?_, Alike.refl stored⟩
    rw [hkey stored hstored]
    exact hstored
  have hstable : ∀ stored, Stable known fun w => Snap known P w ∧ StoredAs stored w :=
    fun stored => stable_snap.and (stable_storedAs stored)
  refine (finishes_lookupSalted hget (fun _ _ h => h.1) (fun stored _ => tidy_reads (hstable stored))
    (fun stored _ => ⟨fun _ => ?_, fun _ => ?_⟩) true).imp ?_
  · exact tidy_quiet (hstable stored)
      (fun _ _ _ _ hstep => quiet_of_passive hstep)
      fun w now _ hlease => ⟨_, rfl, hlease⟩
  · exact tidy_put (hstable stored) (fun w hw => hw.2) (alike_upgraded stored)
  rintro found w' ⟨hw', cell, ⟨hcell, hkey⟩, hstored, hfound, htainted⟩
  rw [htainted rfl]
  refine ⟨hw', ?_, ?_⟩
  · intro e he
    obtain ⟨e', hmem, halike⟩ := hcell e he
    exact ⟨upgraded e', Option.mem_map_of_mem upgraded hmem, halike.trans (alike_upgraded e')⟩
  intro te hte
  obtain ⟨stored, hmem, rfl⟩ := Option.map_eq_some_iff.mp hte
  refine ⟨hkey stored hmem, rfl, ?_⟩
  obtain ⟨e, hfind, halike⟩ := (hstored stored hmem).2
  exact ⟨e, hfind, halike.trans (alike_upgraded stored)⟩

theorem tidy_child (parent : SaltedID) (parentExists : Bool) (child : SaltedID) :
    Tidies known P F (tidyChild revokeTree parent parentExists child) := by
  intro w hw
  rw [tidyChild, finishes_bind, finishes_capture]
  refine (tidy_lookupSalted (F := fun _ => False) child hw).mono ?_ fun _ _ h => h.elim
  rintro (_ | te) w₁ ⟨hw₁, -, hfound⟩
  · have hdelete : Tidies known P F (do
        let result ← capture (perform (.deleteIndex (.below parent child)))
        return failure "failed to delete secondary index" result) :=
      Keeps.then (Keeps.attempt (tidy_passive stable_snap)) fun _ => keeps_pure trivial
    cases parentExists with
    | true | false => exact hdelete w₁ hw₁
  obtain ⟨hkey, hns, hstored⟩ := hfound te rfl
  cases parentExists with
  | true => exact ⟨hw₁, trivial⟩
  | false =>
    have hstable : Stable known fun w => Snap known P w ∧ StoredAs te w :=
      stable_snap.and (stable_storedAs te)
    have horphan : Keeps (tidyLogic known) (fun w => Snap known P w ∧ StoredAs te w) F
        (fun _ => True) (do
          perform (.lock te.id)
          let result ← capture (store (orphaned te))
          perform (.unlock te.id)
          return failure "failed to convert child token into an orphan token" result) := by
      have hput : Keeps (tidyLogic known) (fun w => Snap known P w ∧ StoredAs te w)
          (fun w => Snap known P w ∧ StoredAs te w) (fun _ => True)
          (perform (.putEntry (orphaned te))) :=
        tidy_put hstable (fun w hw => hw.2) ⟨rfl, rfl, rfl⟩
      refine (tidy_passive hstable).then fun _ => ?_
      have hroot : (orphaned te).namespaceID = rootNamespaceID := hns
      refine (keeps_store (tidy_reads hstable) hroot hput).attempt.then fun _ => ?_
      refine (tidy_passive hstable).then ?_
      exact fun _ => keeps_pure trivial
    exact (horphan w₁ ⟨hw₁, hstored⟩).imp fun _ _ h => ⟨h.1.1, trivial⟩

theorem tidy_children (parent : SaltedID) (parentExists : Bool) (children : List SaltedID) :
    Tidies known P F (tidyChildren revokeTree parent parentExists children) := by
  induction children with
  | nil => exact keeps_pure trivial
  | cons child rest ih =>
    exact (tidy_child parent parentExists child).then fun _ => ih.then fun _ => keeps_pure trivial

theorem tidy_parents (parents : List SaltedID) :
    Tidies known P F (tidyParents revokeTree parents) := by
  have hparent : ∀ parent, Tidies known P F (tidyParent revokeTree parent) := by
    intro parent
    have hlist : Tidies known P (Snap known P) (perform (.listChildren parent)) :=
      tidy_passive stable_snap
    have hlookup : Tidies known P (Snap known P) (lookupSalted revokeTree parent true) :=
      fun w hw => (tidy_lookupSalted parent hw).imp fun _ _ h => ⟨h.1, trivial⟩
    refine hlist.attempt.then ?_
    rintro (e | children)
    · exact keeps_pure trivial
    · exact hlookup.attempt.then fun found => tidy_children parent _ children
  induction parents with
  | nil => exact keeps_pure trivial
  | cons parent rest ih => exact (hparent parent).then fun _ => ih.then fun _ => keeps_pure trivial

theorem tidy_deleteAccessor {accessor : SaltedID}
    (hfree : ∀ key e, P key = some e → (⟨e.accessor⟩ : SaltedID) ≠ accessor) :
    Tidies known P F (perform (.deleteAccessor accessor)) := by
  intro w hw
  refine finishes_shared (fun w w₁ hw hrely => stable_snap w w₁ hrely hw) ?_ hw
  rintro w answer w' hw ⟨hstep, -⟩
  obtain ⟨now, rfl, rfl⟩ := healthyStep_iff.mp hstep
  have hbegun : Begun ⟨(effect now (.deleteAccessor accessor) w.state).2,
      .deleteAccessor accessor :: w.log⟩ := .tail _ hw.begun
  obtain ⟨hsound, hmoves⟩ := tidyMoves_of_begun_same hw.sound hbegun rfl rfl
  refine ⟨hmoves, ⟨hsound, hbegun, hw.stored, fun key e he => ?_⟩, trivial⟩
  simp only [effect]
  rw [lookup_filter_ne _ (hfree key e he)]
  exact hw.accessor key e he

section accessors

variable (hP : ∀ key e, P key = some e → e.saltedID = key)

include hP

theorem tidy_lookupInternal (id : GoString) :
    Keeps (tidyLogic known) (Snap known P) F
      (fun found => (∀ key e, P key = some e → id = e.id → ∃ te ∈ found, Alike e te) ∧
        ∀ te ∈ found, te.id = id ∧ te.namespaceID = rootNamespaceID)
      (lookupInternal revokeTree id true) := by
  refine (tidy_saltID stable_snap id).bind ?_
  rintro _ rfl w hw
  refine (tidy_lookupSalted ⟨id⟩ hw).imp ?_
  rintro found w' ⟨hw', hfound, hentries⟩
  refine ⟨hw', ?_, fun te hte => ⟨congrArg SaltedID.id (hentries te hte).1, (hentries te hte).2.1⟩⟩
  rintro key e he rfl
  refine hfound e ?_
  rw [← hP key e he] at he
  exact he

theorem tidy_lookupByAccessor (accessor : SaltedID) :
    Keeps (tidyLogic known) (Snap known P) F
      (fun found => ∀ key e, P key = some e → ⟨e.accessor⟩ = accessor →
        ∃ ae ∈ found, ae.tokenID = e.id)
      (lookupByAccessor revokeTree accessor true) := by
  have hget : Keeps (tidyLogic known) (Snap known P) F
      (fun found => ∀ key e, P key = some e → ⟨e.accessor⟩ = accessor →
        ∃ record ∈ found, tokenOf record = e.id) (perform (.getAccessor accessor)) := by
    refine tidy_quiet stable_snap
      (fun _ _ _ _ hstep => quiet_of_passive hstep) ?_
    refine fun w now hw _ => ⟨_, rfl, ?_⟩
    rintro key e he rfl
    exact hw.accessor key e he
  refine (hget.mapError _).bind ?_
  rintro (_ | ⟨tokenID, accessorID, namespaceID⟩ | tokenID) hfound
  · refine keeps_pure fun key e he haccessor => ?_
    obtain ⟨record, hrecord, -⟩ := hfound key e he haccessor
    cases hrecord
  · refine keeps_pure fun key e he haccessor => ?_
    obtain ⟨record, ⟨⟩, htoken⟩ := hfound key e he haccessor
    exact ⟨_, rfl, htoken⟩
  refine ((tidy_lookupInternal hP tokenID).mapError _).bind ?_
  have htoken : ∀ key e, P key = some e → ⟨e.accessor⟩ = accessor → tokenID = e.id := by
    intro key e he haccessor
    obtain ⟨record, ⟨⟩, htoken⟩ := hfound key e he haccessor
    exact htoken
  rintro (_ | te) ⟨hpresent, hte⟩
  · refine keeps_pure fun key e he haccessor => ?_
    obtain ⟨te, hmem, -⟩ := hpresent key e he (htoken key e he haccessor)
    cases hmem
  · refine keeps_pure fun key e he haccessor => ⟨_, rfl, ?_⟩
    exact (hte te rfl).1.trans (htoken key e he haccessor)

/-- The keys that an accessor has to mark as valid. -/
def Marks (P : SaltedID → Option TokenEntry) (accessor : SaltedID) (findings : AccessorFindings) :
    Prop :=
  ∀ key e, P key = some e → ⟨e.accessor⟩ = accessor →
    cubbyholeKey e ∈ findings.validCubbyholeKeys

omit hP in
theorem tidy_keepCubbyhole {te : TokenEntry} (hns : te.namespaceID = rootNamespaceID) :
    Keeps (tidyLogic known) (Snap known P) F
      (fun findings => cubbyholeKey te ∈ findings.validCubbyholeKeys) (keepCubbyhole te) := by
  rw [keepCubbyhole]
  split
  · rename_i hplain
    intro w hw
    rw [finishes_bind, finishes_capture]
    refine (tidy_saltID (F := fun _ => False) stable_snap te.id w hw).mono ?_ fun _ _ h => h.elim
    rintro _ w' ⟨hw', rfl⟩
    refine ⟨hw', ?_⟩
    simp [cubbyholeKey, hplain.2, TokenEntry.saltedID]
  rename_i hservice
  have hid : isServiceToken te.id = true := by
    simpa [hns] using hservice
  rw [if_neg (te.cubbyhole_ne_nil hid)]
  exact keeps_pure (by simp [cubbyholeKey, hid])

theorem tidy_accessorToken {accessor : SaltedID} {ae : AccessorEntry}
    (hae : ∀ key e, P key = some e → ⟨e.accessor⟩ = accessor → ae.tokenID = e.id) :
    Keeps (tidyLogic known) (Snap known P) F (Marks P accessor)
      (tidyAccessorToken revokeTree accessor ae) := by
  refine (tidy_passive stable_snap).then fun _ => ?_
  intro w hw
  rw [finishes_bind, finishes_capture]
  refine (tidy_lookupInternal (F := fun _ => False) hP ae.tokenID w hw).mono ?_
    fun _ _ h => h.elim
  rintro found w₁ ⟨hw₁, hpresent, hfound⟩
  refine Keeps.then (tidy_passive stable_snap)
    (fun _ => ?_) w₁ hw₁
  cases found with
  | none =>
    -- No token of `P` has this accessor.
    have hfree : ∀ key e, P key = some e → (⟨e.accessor⟩ : SaltedID) ≠ accessor := by
      intro key e he haccessor
      obtain ⟨te, hmem, -⟩ := hpresent key e he (hae key e he haccessor)
      cases hmem
    have hmarks : ∀ findings, Marks P accessor findings :=
      fun findings key e he haccessor => absurd haccessor (hfree key e he)
    have hrevoke : Tidies known P (Snap known P)
        (revokeByToken revokeTree ae.tokenID ae.namespaceID []) := by
      have hns : Tidies known P (Snap known P) (namespaceByID ae.namespaceID) := by
        refine keeps_shared (fun w w₁ hw hrely => stable_snap w w₁ hrely hw) ?_
        rintro w answer w' hw ⟨⟨env, -, hexec⟩, -⟩
        have hmove : Quiet w w' := quiet_of_passive ⟨env, hexec⟩
        exact ⟨tidyMoves_of_quiet hmove, stable_snap _ _ hmove.othersMove hw, fun _ _ => trivial⟩
      refine hns.then fun _ => (tidy_saltID stable_snap _).bind fun _ _ => ?_
      refine (Keeps.mapError (tidy_passive stable_snap) _).then fun _ => ?_
      exact keeps_pure trivial
    refine hrevoke.attempt.then ?_
    rintro (e | _)
    · exact keeps_pure (hmarks _)
    · exact (tidy_deleteAccessor hfree).attempt.then fun _ => keeps_pure (hmarks _)
  | some te =>
    obtain ⟨-, hns⟩ := hfound te rfl
    refine (tidy_keepCubbyhole hns).weaken ?_
    intro findings hkey key e he haccessor
    obtain ⟨te', ⟨⟩, halike⟩ := hpresent key e he (hae key e he haccessor)
    rw [← halike.cubbyholeKey]
    exact hkey

theorem tidy_accessor (accessor : SaltedID) :
    Keeps (tidyLogic known) (Snap known P) F (Marks P accessor)
      (tidyAccessor revokeTree accessor) := by
  intro w hw
  rw [tidyAccessor, finishes_bind, finishes_capture]
  refine (tidy_lookupByAccessor (F := fun _ => False) hP accessor w hw).mono ?_ fun _ _ h => h.elim
  rintro (_ | ae) w₁ ⟨hw₁, hfound⟩
  · refine ⟨hw₁, fun key e he haccessor => ?_⟩
    obtain ⟨ae, hmem, -⟩ := hfound key e he haccessor
    cases hmem
  have hae : ∀ key e, P key = some e → ⟨e.accessor⟩ = accessor → ae.tokenID = e.id := by
    intro key e he haccessor
    obtain ⟨_, ⟨⟩, htoken⟩ := hfound key e he haccessor
    exact htoken
  refine keeps_ite (fun hblank => ?_) (fun _ => tidy_accessorToken hP hae) w₁ hw₁
  have hfree : ∀ key e, P key = some e → (⟨e.accessor⟩ : SaltedID) ≠ accessor :=
    fun key e he haccessor => e.id_ne_nil ((hae key e he haccessor).symm.trans hblank)
  refine (tidy_deleteAccessor hfree).attempt.then ?_
  rintro (e | _)
  · exact keeps_pure fun key e he haccessor => absurd haccessor (hfree key e he)
  · exact tidy_accessorToken hP hae

theorem tidy_accessors (accessors : List SaltedID) :
    Keeps (tidyLogic known) (Snap known P) F
      (fun findings => ∀ accessor ∈ accessors, Marks P accessor findings)
      (tidyAccessors revokeTree accessors) := by
  induction accessors with
  | nil => exact keeps_pure (by simp)
  | cons accessor rest ih =>
    refine (tidy_accessor hP accessor).bind fun findings hfindings => ?_
    refine ih.bind fun more hmore => keeps_pure ?_
    intro a ha key e he haccessor
    rcases List.mem_cons.mp ha with rfl | ha
    · exact List.mem_append_left _ (hfindings key e he haccessor)
    · exact List.mem_append_right _ (hmore a ha key e he haccessor)

end accessors

theorem tidy_clear {key : CubbyholeKey} (hfree : ∀ te, known te → cubbyholeKey te ≠ key) :
    Tidies known P F (perform (.clearCubbyhole key)) := by
  intro w hw
  refine finishes_shared (fun w w₁ hw hrely => stable_snap w w₁ hrely hw) ?_ hw
  rintro w answer w' hw ⟨hstep, -⟩
  obtain ⟨now, rfl, rfl⟩ := healthyStep_iff.mp hstep
  have hbegun : Begun ⟨(effect now (.clearCubbyhole key) w.state).2,
      .clearCubbyhole key :: w.log⟩ := .tail _ hw.begun
  have hdata : KeepsData known w ⟨(effect now (.clearCubbyhole key) w.state).2,
      .clearCubbyhole key :: w.log⟩ := by
    refine ⟨List.subset_cons_self _ _, ?_⟩
    rintro item hitem ⟨te, hte, hkey⟩
    have hkept : item.key ≠ key := hkey ▸ hfree te hte
    exact ⟨item, List.mem_filter.mpr ⟨hitem, by simpa using hkept⟩, rfl, rfl, .inl rfl⟩
  obtain ⟨hsound, hmoves⟩ := tidyMoves_of_begun hw.sound hbegun rfl
    (fun item hitem => List.mem_of_mem_filter hitem) hdata
  exact ⟨hmoves, ⟨hsound, hbegun, hw.stored, hw.accessor⟩, trivial⟩

theorem tidy_cubbyholes {valid keys : List CubbyholeKey}
    (hfree : ∀ key ∈ keys, key ∉ valid → ∀ te, known te → cubbyholeKey te ≠ key) :
    Tidies known P F (tidyCubbyholes valid keys) := by
  induction keys with
  | nil => exact keeps_pure trivial
  | cons key rest ih =>
    have hkey : Tidies known P F (tidyCubbyhole valid key) := by
      refine keeps_ite (fun _ => keeps_pure trivial) fun hinvalid => ?_
      refine (tidy_clear (hfree key List.mem_cons_self hinvalid)).attempt.then ?_
      exact fun _ => keeps_pure trivial
    refine hkey.then fun _ => ?_
    exact (ih fun k hk => hfree k (.tail _ hk)).then fun _ => keeps_pure trivial

/-- Between the two lists: the cubbyholes of known tokens are those of tokens of `P`. -/
structure Early (known : TokenEntry → Prop) (P : SaltedID → Option TokenEntry) (w : World) :
    Prop where
  snap : Snap known P w
  unlisted : ¬ Listed w
  owned : ∀ item ∈ w.state.cubbyholes, ∀ te, known te → cubbyholeKey te = item.key →
    P te.saltedID ≠ none

theorem stable_early : Stable known (Early known P) := by
  intro w w' hmove hw
  refine ⟨stable_snap w w' hmove hw.snap, fun h => hw.unlisted (hmove.listed.mp h), ?_⟩
  intro item hitem
  exact hw.owned item (hmove.data hw.snap.begun hw.unlisted item hitem)

theorem tidy_listAccessors (hw : Sound known w ∧ ¬ Begun w ∧ ¬ Listed w) :
    Finishes (tidyLogic known) (perform .listAccessors) w
      (fun accessors w' => ∃ P : SaltedID → Option TokenEntry, Early known P w' ∧
        ∀ key e, P key = some e → e.saltedID = key ∧ (⟨e.accessor⟩ : SaltedID) ∈ accessors ∧
          ∃ te, known te ∧ Alike te e)
      fun _ => F := by
  have hstable : Stable known fun w => Sound known w ∧ ¬ Begun w ∧ ¬ Listed w :=
    fun w w' hmove h => ⟨hmove.sound h.1, fun hb => h.2.1 (hmove.begun.mp hb),
      fun hl => h.2.2 (hmove.listed.mp hl)⟩
  refine finishes_shared (fun w w₁ hw hrely => hstable w w₁ hrely hw) ?_ hw
  rintro w answer w' ⟨hsound, hbegun, hlisted⟩ ⟨hstep, -⟩
  obtain ⟨now, rfl, rfl⟩ := healthyStep_iff.mp hstep
  have hbegun' : Begun ⟨w.state, .listAccessors :: w.log⟩ := .head _
  obtain ⟨hsound', hmoves⟩ := tidyMoves_of_begun_same hsound hbegun' rfl rfl
  refine ⟨hmoves, w.state.entries.find, ⟨⟨hsound', hbegun', entries_same, hsound.accessors hbegun⟩,
    fun h => hlisted ((listed_cons (by simp)).mp h), hsound.owned⟩, fun key e he => ?_⟩
  obtain ⟨record, hrecord, -⟩ := hsound.accessors hbegun key e he
  exact ⟨(w.state.entries.keyed key e he).symm, mem_of_lookup hrecord, hsound.entries key e he⟩

theorem tidy_listCubbyholes (hw : Early known P w) :
    Finishes (tidyLogic known) (perform .listCubbyholes) w
      (fun keys w' => Snap known P w' ∧
        ∀ key ∈ keys, ∀ te, known te → cubbyholeKey te = key → P te.saltedID ≠ none)
      fun _ => F := by
  refine finishes_shared (fun w w₁ hw hrely => stable_early w w₁ hrely hw) ?_ hw
  rintro w answer w' hw ⟨hstep, -⟩
  obtain ⟨now, rfl, rfl⟩ := healthyStep_iff.mp hstep
  have hsnap := hw.snap
  have hbegun : Begun ⟨w.state, .listCubbyholes :: w.log⟩ :=
    .tail _ hsnap.begun
  obtain ⟨hsound, hmoves⟩ := tidyMoves_of_begun_same hsnap.sound hbegun rfl rfl
  refine ⟨hmoves, ⟨hsound, hbegun, hsnap.stored, hsnap.accessor⟩, fun key hkey te hte hown => ?_⟩
  obtain ⟨item, hitem, rfl⟩ := List.mem_map.mp (List.mem_dedup.mp hkey)
  exact hw.owned item hitem te hte hown

theorem tidy_doTidy (hids : ∀ te te', known te → known te' → te.id = te'.id → Alike te te')
    (hw : Sound known w ∧ ¬ Begun w ∧ ¬ Listed w) :
    Finishes (tidyLogic known) (doTidy revokeTree) w (fun _ _ => True) fun _ _ => True := by
  refine (finishes_mapError.mpr (tidy_listAccessors (F := fun _ => True) hw)).bind ?_
  rintro accessors w₁ ⟨P, hw₁, hP⟩
  have hlist : Keeps (tidyLogic known) (Early known P) (fun _ => True) (fun _ => True)
      (perform .listParents) :=
    tidy_passive stable_early
  refine ((hlist.mapError _).lax hw₁).bind ?_
  rintro parents w₂ ⟨hw₂, -⟩
  refine (finishes_mapError.mpr (tidy_listCubbyholes (F := fun _ => True) hw₂)).bind ?_
  rintro keys w₃ ⟨hw₃, hkeys⟩
  refine ((tidy_parents (F := fun _ => True) parents).lax hw₃).bind ?_
  rintro parentErrors w₄ ⟨hw₄, -⟩
  refine ((tidy_accessors (F := fun _ => True) (fun key e he => (hP key e he).1) accessors).lax
    hw₄).bind ?_
  rintro findings w₅ ⟨hw₅, hfindings⟩
  -- A listed key of a known token has been marked by the accessor of the token.
  have hfree : ∀ key ∈ keys, key ∉ findings.validCubbyholeKeys →
      ∀ te, known te → cubbyholeKey te ≠ key := by
    rintro key hkey hinvalid te hte rfl
    obtain ⟨e, he⟩ := Option.ne_none_iff_exists'.mp (hkeys _ hkey te hte rfl)
    obtain ⟨hkey', hlisted, te', hte', halike⟩ := hP te.saltedID e he
    have hid : te.id = te'.id := (congrArg SaltedID.id hkey').symm.trans halike.id
    rw [← ((hids te te' hte hte' hid).trans halike).cubbyholeKey] at hinvalid
    exact hinvalid (hfindings _ hlisted te.saltedID e he rfl)
  refine ((tidy_cubbyholes (F := fun _ => True) hfree).lax hw₅).bind ?_
  exact fun _ _ _ => trivial

end VaultProofs.CubbyholeTidy
