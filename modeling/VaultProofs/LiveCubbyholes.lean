import VaultProofs.CubbyholeTidy

/-!
A tidy that runs while tokens are created and cubbyholes are written.
-/

namespace VaultProofs.LiveCubbyholes

open GoStrings ConcurrentPrograms ProgramOutcomes SharedPrograms TokenEffects TokenStore
open TokenLookups CubbyholeMoves CubbyholeTidy
open VaultEffects (GoError)

section creations

structure CreatorMoves (known : TokenEntry → Prop) (te : TokenEntry) (w w' : World) : Prop where
  others : OthersMove known w w'
  spares : ∀ te', known te' → te'.id ≠ te.id → Spares known te' w w'
  data : KeepsData known w w'

def creatorStep : Outcomes tokens World := fun op w answer w' =>
  anyStep op w answer w' ∧ LeaseFound w.state op

def creatorLogic (known : TokenEntry → Prop) (te : TokenEntry) : Logic tokens World :=
  sharing (Spares known te) (CreatorMoves known te) creatorStep

variable {known : TokenEntry → Prop} {te : TokenEntry}

variable {w w' : World}

theorem creatorMoves_of_quiet (h : Quiet w w') : CreatorMoves known te w w' :=
  ⟨h.othersMove, fun te' _ _ => h.spares te', h.keepsData⟩

structure Waiting (known : TokenEntry → Prop) (te : TokenEntry) (w : World) : Prop where
  sound : Sound known w
  absent : w.state.entries.find te.saltedID = none

structure Indexed (known : TokenEntry → Prop) (te : TokenEntry) (w : World) : Prop where
  waiting : Waiting known te w
  accessor : ¬ Begun w →
    ∃ record, w.state.accessors.lookup ⟨te.accessor⟩ = some record ∧ tokenOf record = te.id

theorem waiting_spared (w w' : World) (h : Waiting known te w) (hmove : Spares known te w w') :
    Waiting known te w' :=
  ⟨hmove.sound h.sound, hmove.absent h.absent⟩

theorem indexed_spared (w w' : World) (h : Indexed known te w) (hmove : Spares known te w w') :
    Indexed known te w' := by
  refine ⟨waiting_spared w w' h.waiting hmove, fun hbegun => ?_⟩
  rw [hmove.accessor hbegun]
  exact h.accessor fun hb => hbegun (hmove.begun hb)

section operations

variable {K : World → Prop} (hK : ∀ w w', K w → Spares known te w w' → K w')

include hK

theorem creator_quiet {op : TokenOp} {Q : op.Result → Prop}
    (hquiet : ∀ w answer w', K w → anyStep op w answer w' → Quiet w w')
    (hanswer : ∀ w now value, K w → LeaseFound w.state op →
      (effect now op w.state).1 = .ok value → Q value) :
    Keeps (creatorLogic known te) K K Q (perform op) := by
  refine keeps_shared hK ?_
  rintro w answer w' hw ⟨hstep, hlease⟩
  have hmove := hquiet w answer w' hw hstep
  refine ⟨creatorMoves_of_quiet hmove, hK w w' hw (hmove.spares te), ?_⟩
  rintro value rfl
  rcases anyStep_cases hstep with ⟨hfailed, -⟩ | ⟨now, hvalue, -⟩
  · cases hfailed
  · exact hanswer w now value hw hlease hvalue.symm

theorem creator_passive {op : TokenOp} (hop : Passive op := by simp [Passive, effect]) :
    Keeps (creatorLogic known te) K K (fun _ => True) (perform op) :=
  creator_quiet hK (fun _ _ _ _ hstep => quiet_of_passive hstep hop) fun _ _ _ _ _ _ => trivial

theorem creator_saltID (id : GoString) :
    Keeps (creatorLogic known te) K K (fun key => key = ⟨id⟩) (saltID id) := by
  refine creator_quiet hK (fun _ _ _ _ hstep => quiet_of_passive hstep) ?_
  intro w now value _ _ hvalue
  exact (Except.ok.inj hvalue).symm

theorem creator_namespaceByID (nsID : GoString) :
    Keeps (creatorLogic known te) K K (fun _ => True) (namespaceByID nsID) :=
  creator_passive hK

theorem creator_reads {F : World → Prop} (hF : ∀ w, K w → F w) :
    Reads (creatorLogic known te) K F where
  rootNamespace := (creator_namespaceByID hK _).onError hF
  saltID id := (creator_saltID hK id).onError hF
  timeNow := (creator_passive hK).onError hF

end operations

theorem creator_lookupSalted {K : World → Prop}
    (hK : ∀ w w', K w → Spares known te w w' → K w') (revokeTree : GoString → TokenM Unit)
    (key : SaltedID) (tainted : Bool) :
    Keeps (creatorLogic known te) K K (fun _ => True) (lookupSalted revokeTree key tainted) := by
  intro w hw
  have hget : Finishes (creatorLogic known te) (perform (.getEntry key)) w
      (fun cell w' => K w' ∧ True ∧ ∀ stored ∈ cell, K w' ∧ StoredAs stored w') fun _ => K := by
    refine finishes_shared hK ?_ hw
    rintro w answer w' hw ⟨hstep, -⟩
    have hmove : Quiet w w' := quiet_of_passive hstep
    have hw' := hK w w' hw (hmove.spares te)
    refine ⟨creatorMoves_of_quiet hmove, ?_⟩
    rcases anyStep_cases hstep with ⟨rfl, -⟩ | ⟨now, rfl, rfl⟩
    · exact hw'
    · refine ⟨hw', trivial, fun stored hstored => ⟨hw', stored, ?_, Alike.refl stored⟩⟩
      rw [← w.state.entries.keyed key stored hstored]
      exact hstored
  have hstable : ∀ stored w w', K w ∧ StoredAs stored w → Spares known te w w' →
      K w' ∧ StoredAs stored w' := by
    rintro stored w w' ⟨hw, e, hfind, halike⟩ hmove
    obtain ⟨e', hfind', halike'⟩ := hmove.entries _ e hfind
    exact ⟨hK w w' hw hmove, e', hfind', halike'.symm.trans halike⟩
  refine (finishes_lookupSalted hget (fun _ _ h => h.1)
    (fun stored _ => creator_reads (hstable stored) fun _ h => h.1)
    (fun stored _ => ⟨fun _ => ?_, fun _ => ?_⟩) tainted).imp ?_
  · refine Keeps.onError (creator_quiet (hstable stored) (fun _ _ _ _ hstep => ?_) ?_) fun _ h => h.1
    · exact quiet_of_passive hstep
    · rintro w now value _ hlease hvalue
      cases hvalue
      exact hlease
  · refine Keeps.onError (creator_quiet (hstable stored) ?_ fun _ _ _ _ _ _ => trivial)
      fun _ h => h.1
    rintro w answer w' ⟨-, e, hfind, halike⟩ hstep
    have hstored : w.state.entries.find (upgraded stored).saltedID = some e := hfind
    exact quiet_put_step hstored (halike.trans (alike_upgraded stored)) hstep
  · exact fun _ _ h => ⟨h.1, trivial⟩

variable (hte : known te)
  (haccessors : ∀ te te', known te → known te' → te.accessor = te'.accessor → te.id = te'.id)

include hte haccessors in
theorem creator_putAccessor {record : AccessorRecord} (hrecord : tokenOf record = te.id) {w : World}
    (hw : Waiting known te w) :
    Finishes (creatorLogic known te) (perform (.putAccessor ⟨te.accessor⟩ record)) w
      (fun _ w' => Indexed known te w') fun _ _ => True := by
  refine finishes_shared waiting_spared ?_ hw
  rintro w answer w' hw ⟨hstep, -⟩
  rcases anyStep_cases hstep with ⟨rfl, rfl⟩ | ⟨now, rfl, rfl⟩
  · exact ⟨creatorMoves_of_quiet (quiet_failed nofun nofun), trivial⟩
  have hsame : ∀ key : SaltedID, key ≠ ⟨te.accessor⟩ →
      (effect now (.putAccessor ⟨te.accessor⟩ record) w.state).2.accessors.lookup key =
        w.state.accessors.lookup key := by
    intro key hkey
    have hbeq : (key == (⟨te.accessor⟩ : SaltedID)) = false := beq_eq_false_iff_ne.mpr hkey
    simp only [effect, List.lookup_cons, hbeq]
    exact lookup_filter_ne _ hkey
  have hown : (effect now (.putAccessor ⟨te.accessor⟩ record) w.state).2.accessors.lookup
      ⟨te.accessor⟩ = some record := by
    simp [effect]
  -- A stored token has another accessor.
  have hother : ∀ key e, w.state.entries.find key = some e →
      (⟨e.accessor⟩ : SaltedID) ≠ ⟨te.accessor⟩ := by
    intro key e hfind haccessor
    obtain ⟨te', hte', halike⟩ := hw.sound.entries key e hfind
    have hid : te'.id = te.id :=
      haccessors te' te hte' hte (halike.accessor.symm.trans (congrArg SaltedID.id haccessor))
    have hkey : key = te.saltedID :=
      (w.state.entries.keyed key e hfind).trans (congrArg SaltedID.mk (halike.id.trans hid))
    rw [hkey, hw.absent] at hfind
    cases hfind
  have hsound : Sound known ⟨(effect now (.putAccessor ⟨te.accessor⟩ record) w.state).2,
      .putAccessor ⟨te.accessor⟩ record :: w.log⟩ := by
    refine ⟨hw.sound.entries, hw.sound.owned, fun hnot key e hfind => ?_⟩
    rw [hsame _ (hother key e hfind)]
    exact hw.sound.accessors (fun hb => hnot (.tail _ hb)) key e hfind
  refine ⟨⟨?_, ?_, ?_⟩, ⟨⟨hsound, hw.absent⟩, fun _ => ⟨record, hown, hrecord⟩⟩⟩
  · exact ⟨fun _ => hsound, entries_same, fun key e hfind => hsame _ (hother key e hfind),
      begun_cons nofun, listed_cons nofun, fun _ _ _ hitem => hitem⟩
  · intro te' hte' hid
    refine ⟨fun _ => hsound, entries_same, fun h => h, fun h => .tail _ h, fun _ => hsame _ ?_⟩
    exact fun heq => hid (haccessors te' te hte' hte (congrArg SaltedID.id heq))
  · exact keepsData_cons rfl

include hte in
theorem creator_putEntry {w : World} (hw : Indexed known te w) :
    Finishes (creatorLogic known te) (perform (.putEntry te)) w (fun _ _ => True)
      fun _ _ => True := by
  refine finishes_shared indexed_spared ?_ hw
  rintro w answer w' hw ⟨hstep, -⟩
  rcases anyStep_cases hstep with ⟨rfl, rfl⟩ | ⟨now, rfl, rfl⟩
  · exact ⟨creatorMoves_of_quiet (quiet_failed nofun nofun), trivial⟩
  have habsent := hw.waiting.absent
  have hsoundw := hw.waiting.sound
  have hkept : ∀ key e, w.state.entries.find key = some e →
      ∃ e', (w.state.entries.put te).find key = some e' ∧ Alike e e' := by
    intro key e hfind
    have hkey : key ≠ te.saltedID := by
      rintro rfl
      rw [habsent] at hfind
      cases hfind
    exact ⟨e, (TokenTable.find_put_of_ne _ hkey).trans hfind, Alike.refl e⟩
  have hentry : ∀ key e, (w.state.entries.put te).find key = some e →
      e = te ∨ w.state.entries.find key = some e := by
    intro key e hfind
    by_cases hkey : key = te.saltedID
    · rw [hkey, TokenTable.find_put_self] at hfind
      exact .inl (Option.some.inj hfind).symm
    · exact .inr ((TokenTable.find_put_of_ne _ hkey).symm.trans hfind)
  have hsound : Sound known ⟨(effect now (.putEntry te) w.state).2, .putEntry te :: w.log⟩ := by
    refine ⟨?_, ?_, ?_⟩
    · intro key e hfind
      rcases hentry key e hfind with rfl | hold
      · exact ⟨e, hte, Alike.refl e⟩
      · exact hsoundw.entries key e hold
    · intro item hitem te' hte' hkey
      obtain ⟨e, hfind⟩ :=
        Option.ne_none_iff_exists'.mp (hsoundw.owned item hitem te' hte' hkey)
      obtain ⟨e', hfind', -⟩ := hkept _ e hfind
      rw [Option.ne_none_iff_exists']
      exact ⟨e', hfind'⟩
    intro hnot key e hfind
    have hnot' : ¬ Begun w := fun hb => hnot (.tail _ hb)
    rcases hentry key e hfind with rfl | hold
    · exact hw.accessor hnot'
    · exact hsoundw.accessors hnot' key e hold
  refine ⟨⟨?_, ?_, ?_⟩, trivial⟩
  · exact ⟨fun _ => hsound, hkept, fun _ _ _ => rfl, begun_cons nofun, listed_cons nofun,
      fun _ _ _ hitem => hitem⟩
  · intro te' hte' hid
    refine ⟨fun _ => hsound, hkept, fun h => ?_, fun h => .tail _ h, fun _ => rfl⟩
    exact (TokenTable.find_put_of_ne _ fun heq => hid (congrArg SaltedID.id heq)).trans h
  · exact keepsData_cons rfl

include hte haccessors in
theorem creator_holds {entry : TokenEntry} (hentry : te = created entry)
    (revokeTree : GoString → TokenM Unit) (userSelectedID : Bool) {w : World}
    (hw : Waiting known te w) :
    Finishes (creatorLogic known te) (TokenStore.create revokeTree entry userSelectedID) w
      (fun _ _ => True) fun _ _ => True := by
  -- From the accessor to the entry.
  have hstore : ∀ w, Indexed known te w → Finishes (creatorLogic known te)
      (storeCommon (lookup revokeTree) te true) w (fun _ _ => True) fun _ _ => True := by
    intro w hw
    refine ((creator_namespaceByID indexed_spared _).lax hw).bind ?_
    rintro _ w₁ ⟨hw₁, -⟩
    refine ((creator_saltID indexed_spared _).lax hw₁).bind ?_
    rintro saltedID w₂ ⟨hw₂, -⟩
    have hparent : Keeps (creatorLogic known te) (Indexed known te) (Indexed known te)
        (fun _ => True) (writeParentIndex (lookup revokeTree) te saltedID true) := by
      refine keeps_ite (fun _ => keeps_pure trivial) fun _ => ?_
      refine (Keeps.mapError (keeps_lookup (creator_saltID indexed_spared te.parent)
        (creator_passive indexed_spared) (creator_passive indexed_spared)
        (creator_lookupSalted indexed_spared revokeTree ⟨te.parent⟩ false)) _).then ?_
      rintro (_ | parent)
      · exact keeps_throw fun _ h => h
      · refine (creator_namespaceByID indexed_spared _).then fun _ => ?_
        refine (creator_saltID indexed_spared _).bind fun parentSaltedID _ => ?_
        exact (creator_passive indexed_spared).mapError _
    refine (hparent.lax hw₂).bind ?_
    rintro _ w₃ ⟨hw₃, -⟩
    exact finishes_mapError.mpr (creator_putEntry hte hw₃)
  subst hentry
  refine finishes_create userSelectedID (creator_namespaceByID waiting_spared _)
    ((creator_saltID waiting_spared _).bind fun key _ => creator_lookupSalted waiting_spared revokeTree key true)
    (fun w hw => ?_) hstore hw
  refine ((creator_namespaceByID waiting_spared _).lax hw).bind ?_
  rintro _ w₁ ⟨hw₁, -⟩
  refine ((creator_saltID waiting_spared _).lax hw₁).bind ?_
  rintro _ w₂ ⟨hw₂, rfl⟩
  exact finishes_mapError.mpr (creator_putAccessor hte haccessors rfl hw₂)

end creations

section writes

structure WriterMoves (known : TokenEntry → Prop) (w w' : World) : Prop where
  others : OthersMove known w w'
  spares : ∀ te, Spares known te w w'
  data : KeepsData known w w'

def writerStep (call : Call) : Outcomes tokens World := fun op w answer w' =>
  anyStep op w answer w' ∧ MayWrite w call op

def SoundMoves (known : TokenEntry → Prop) (w w' : World) : Prop :=
  Sound known w → Sound known w'

def writerLogic (known : TokenEntry → Prop) (call : Call) : Logic tokens World :=
  sharing (SoundMoves known) (WriterMoves known) (writerStep call)

variable {known : TokenEntry → Prop}

theorem writerMoves_of_quiet {w w' : World} (h : Quiet w w') : WriterMoves known w w' :=
  ⟨h.othersMove, fun te => h.spares te, h.keepsData⟩

variable (hkeys : ∀ te te', known te → known te' → cubbyholeKey te = cubbyholeKey te' → te.id = te'.id)

include hkeys

theorem writer_write (stored : TokenEntry) (path value : GoString) (p v : GoString) {w : World}
    (hw : Sound known w) :
    Finishes (writerLogic known (.write stored path value))
      (perform (.writeCubbyhole ⟨cubbyholeKey stored, p, v⟩)) w (fun _ _ => True)
      fun _ _ => True := by
  refine finishes_shared (fun _ _ hw hmove => hmove hw) ?_ hw
  rintro w answer w' hw ⟨hstep, hlisted, hlive⟩
  rcases anyStep_cases hstep with ⟨rfl, rfl⟩ | ⟨now, rfl, rfl⟩
  · exact ⟨writerMoves_of_quiet (quiet_failed nofun nofun), trivial⟩
  obtain ⟨e, hfind, hcubbyhole⟩ := Option.map_eq_some_iff.mp hlive
  have halike : cubbyholeKey e = cubbyholeKey stored := by
    have hid : e.id = stored.id :=
      (congrArg SaltedID.id (w.state.entries.keyed _ e hfind)).symm
    simp only [cubbyholeKey, hid, hcubbyhole, TokenEntry.saltedID]
  have hsound : Sound known ⟨(effect now (.writeCubbyhole ⟨cubbyholeKey stored, p, v⟩) w.state).2,
      .writeCubbyhole ⟨cubbyholeKey stored, p, v⟩ :: w.log⟩ := by
    refine ⟨hw.entries, ?_, fun hnot => hw.accessors fun hb => hnot (.tail _ hb)⟩
    intro item hitem te hte hkey
    rcases List.mem_cons.mp hitem with rfl | hold
    · -- The only known token with this key is the one that writes.
      obtain ⟨te', hte', hknown⟩ := hw.entries _ e hfind
      have hid : te.id = te'.id := by
        refine hkeys te te' hte hte' (hkey.trans ?_)
        rw [← hknown.cubbyholeKey]
        exact halike.symm
      have hsalted : te.saltedID = stored.saltedID := by
        rw [w.state.entries.keyed _ e hfind, hknown.saltedID]
        exact congrArg SaltedID.mk hid
      show w.state.entries.find te.saltedID ≠ none
      rw [hsalted, hfind]
      exact Option.some_ne_none e
    · exact hw.owned item (List.mem_of_mem_filter hold) te hte hkey
  refine ⟨⟨?_, fun te => ?_, ?_⟩, trivial⟩
  · exact ⟨fun _ => hsound, entries_same, fun _ _ _ => rfl, begun_cons nofun, listed_cons nofun,
      fun hb hl => absurd (hlisted hb) hl⟩
  · exact ⟨fun _ => hsound, entries_same, fun h => h, fun h => .tail _ h, fun _ => rfl⟩
  refine ⟨List.subset_cons_self _ _, fun item hitem _ => ?_⟩
  by_cases hsame : item.key = cubbyholeKey stored ∧ item.path = p
  · exact ⟨_, (.head _), hsame.1.symm, hsame.2.symm, .inr (.head _)⟩
  · exact ⟨item, .tail _ (List.mem_filter.mpr ⟨hitem, by simpa [imp_iff_not_or] using hsame⟩),
      rfl, rfl, .inl rfl⟩

theorem writer_holds (stored : TokenEntry) (path value : GoString) (fuel depth : Nat) {w : World}
    (hw : Sound known w) :
    Finishes (writerLogic known (.write stored path value))
      ((Call.write stored path value).program fuel depth) w (fun _ _ => True)
      fun _ _ => True := by
  have hroute : Keeps (writerLogic known (.write stored path value)) (Sound known) (Sound known)
      (fun key => key = cubbyholeKey stored) (routeCubbyhole (upgraded stored)) := by
    refine keeps_ite (fun _ => keeps_throw fun _ h => h) fun _ => ?_
    refine keeps_ite (fun hplain => ?_) fun hservice => ?_
    · have hsalt : Keeps (writerLogic known (.write stored path value)) (Sound known) (Sound known)
          (fun key => key = stored.saltedID) (saltID stored.id) := by
        refine keeps_shared (fun _ _ hw hmove => hmove hw) ?_
        rintro w answer w' hw ⟨hstep, -⟩
        have hmove : Quiet w w' := quiet_of_passive hstep
        refine ⟨writerMoves_of_quiet hmove, hmove.sound hw, ?_⟩
        rintro key rfl
        rcases anyStep_cases hstep with ⟨hfailed, -⟩ | ⟨now, hvalue, -⟩
        · cases hfailed
        · exact Except.ok.inj hvalue
      refine hsalt.bind fun key hkey => keeps_pure ?_
      have hid : isServiceToken stored.id = false := hplain.2
      rw [hkey, cubbyholeKey, if_pos hid]
    · refine keeps_ite (fun _ => keeps_throw fun _ h => h) fun _ => keeps_pure ?_
      have hid : ¬ isServiceToken stored.id = false := fun hid => hservice ⟨rfl, hid⟩
      rw [cubbyholeKey, if_neg hid]
      rfl
  refine (hroute.lax hw).bind ?_
  rintro _ w₁ ⟨hw₁, rfl⟩
  rw [handleWrite]
  split
  · trivial
  · exact finishes_mapError.mpr (writer_write hkeys stored path value path value hw₁)

end writes

def Known {ι : Type} (s : TokenState) (calls : ι → Call) (te : TokenEntry) : Prop :=
  s.entries.find te.saltedID = some te ∨
    ∃ i entry userSelectedID, calls i = .create entry userSelectedID ∧ te = created entry

/-- Tokens have accessors and cubbyholes of their own, those of stored tokens are there, created
tokens are new, and there is one tidy at a time. -/
structure Separate {ι : Type} (s : TokenState) (calls : ι → Call) : Prop where
  oneTidy : ∀ i j, calls i = .tidy → calls j = .tidy → i = j
  fresh : ∀ i entry userSelectedID, calls i = .create entry userSelectedID →
    s.entries.find entry.saltedID = none
  creations : ∀ i j entry entry' userSelectedID userSelectedID',
    calls i = .create entry userSelectedID → calls j = .create entry' userSelectedID' →
    entry.id = entry'.id → i = j
  accessors : ∀ te te', Known s calls te → Known s calls te' → te.accessor = te'.accessor →
    te.id = te'.id
  keys : ∀ te te', Known s calls te → Known s calls te' → cubbyholeKey te = cubbyholeKey te' →
    te.id = te'.id
  indexed : ∀ key te, s.entries.find key = some te →
    ∃ record, s.accessors.lookup ⟨te.accessor⟩ = some record ∧ tokenOf record = te.id
  unowned : ∀ item ∈ s.cubbyholes, ∀ i entry userSelectedID,
    calls i = .create entry userSelectedID → cubbyholeKey entry ≠ item.key

def callContract (known : TokenEntry → Prop) : Call → Contract tokens World (Except GoError Unit)
  | .tidy =>
    { rely := OthersMove known
      guar := TidyMoves known
      outcomes := tidyStep
      post := fun _ _ => True
      rely_trans := fun _ _ _ => othersMove_trans
      post_rely := fun _ _ _ _ _ => trivial }
  | .create entry _ =>
    { rely := Spares known (created entry)
      guar := CreatorMoves known (created entry)
      outcomes := creatorStep
      post := fun _ _ => True
      rely_trans := fun _ _ _ => spares_trans
      post_rely := fun _ _ _ _ _ => trivial }
  | .write stored path value =>
    { rely := SoundMoves known
      guar := WriterMoves known
      outcomes := writerStep (.write stored path value)
      post := fun _ _ => True
      rely_trans := fun _ _ _ hab hbc h => hbc (hab h)
      post_rely := fun _ _ _ _ _ => trivial }

section runs

variable {ι : Type} [DecidableEq ι] {s : TokenState} {calls : ι → Call}

omit [DecidableEq ι] in
theorem Separate.known_alike (h : Separate s calls) (te te' : TokenEntry) (hte : Known s calls te)
    (hte' : Known s calls te') (hid : te.id = te'.id) : Alike te te' := by
  have hkey : te.saltedID = te'.saltedID := congrArg SaltedID.mk hid
  rcases hte with hstored | ⟨i, entry, u, hcall, rfl⟩
  · rcases hte' with hstored' | ⟨i, entry, u, hcall, rfl⟩
    · rw [hkey, hstored'] at hstored
      cases hstored
      exact Alike.refl te
    · rw [hkey] at hstored
      cases (h.fresh i entry u hcall).symm.trans hstored
  rcases hte' with hstored' | ⟨j, entry', u', hcall', rfl⟩
  · rw [← hkey] at hstored'
    cases (h.fresh i entry u hcall).symm.trans hstored'
  · cases h.creations i j entry entry' u u' hcall hcall' hid
    cases hcall.symm.trans hcall'
    exact Alike.refl _

omit [DecidableEq ι] in
theorem compatible_calls (h : Separate s calls) :
    Compatible fun i => callContract (Known s calls) (calls i) := by
  constructor
  · intro i w
    cases hcall : calls i with
    | tidy => exact (Quiet.refl w).othersMove
    | create entry u => exact (Quiet.refl w).spares _
    | write stored path value => exact fun hw => hw
  intro i j hj w w'
  have hknown : ∀ i entry u, calls i = .create entry u → Known s calls (created entry) :=
    fun i entry u hcall => .inr ⟨i, entry, u, hcall, rfl⟩
  cases hcall : calls i with
  | tidy =>
    cases hcall' : calls j with
    | tidy => exact absurd (h.oneTidy j i hcall' hcall) hj
    | create entry u => exact fun hguar => hguar.spares _
    | write stored path value => exact fun hguar => hguar.sound
  | create entry u =>
    cases hcall' : calls j with
    | tidy => exact fun hguar => hguar.others
    | create entry' u' =>
      intro hguar
      refine hguar.spares _ (hknown j entry' u' hcall') fun hid => hj ?_
      exact h.creations j i entry' entry u' u hcall' hcall hid
    | write stored path value => exact fun hguar => hguar.others.sound
  | write stored path value =>
    cases hcall' : calls j with
    | tidy => exact fun hguar => hguar.others
    | create entry' u' => exact fun hguar => hguar.spares _
    | write stored path value => exact fun hguar => hguar.others.sound

theorem guar_sound {known : TokenEntry → Prop} {w w' : World} (call : Call)
    (h : (callContract known call).guar w w') (hw : Sound known w) : Sound known w' := by
  cases call with
  | tidy => exact h.sound hw
  | create entry u | write stored path value => exact h.others.sound hw

theorem guar_data {known : TokenEntry → Prop} {w w' : World} (call : Call)
    (h : (callContract known call).guar w w') : KeepsData known w w' := by
  cases call with
  | tidy | create entry u | write stored path value => exact h.data

omit [DecidableEq ι] in
theorem honours_start (h : Separate s calls) (fuel depth : Nat) :
    Sound (Known s calls) ⟨s, []⟩ ∧
      Honours (fun i => callContract (Known s calls) (calls i)) (startCalls calls fuel depth s) := by
  have hsound : Sound (Known s calls) ⟨s, []⟩ := by
    refine ⟨?_, ?_, fun _ => h.indexed⟩
    · intro key e hfind
      have hkey := s.entries.keyed key e hfind
      exact ⟨e, .inl (hkey ▸ hfind), Alike.refl e⟩
    rintro item hitem te (hstored | ⟨i, entry, u, hcall, rfl⟩) hkey
    · rw [hstored]
      exact Option.some_ne_none te
    · exact absurd hkey (h.unowned item hitem i entry u hcall)
  refine ⟨hsound, fun i => ?_⟩
  show (callContract (Known s calls) (calls i)).Holds ((calls i).program fuel depth).run ⟨s, []⟩
  cases hcall : calls i with
  | tidy =>
    have htidy : Finishes (tidyLogic (Known s calls)) (Call.tidy.program fuel depth) ⟨s, []⟩
        (fun _ _ => True) fun _ _ => True :=
      (tidy_doTidy h.known_alike ⟨hsound, by simp [Begun], by simp [Listed]⟩).bind
        fun _ _ _ => trivial
    exact Ends.mono htidy fun _ _ _ => trivial
  | create entry u =>
    have hwaiting : Waiting (Known s calls) (created entry) ⟨s, []⟩ :=
      ⟨hsound, h.fresh i entry u hcall⟩
    exact Ends.mono (creator_holds (.inr ⟨i, entry, u, hcall, rfl⟩) h.accessors rfl _ u hwaiting)
      fun _ _ _ => trivial
  | write stored path value =>
    exact Ends.mono (writer_holds h.keys stored path value fuel depth hsound)
      fun _ _ _ => trivial

/-- The tidy destroys no data of a stored token: what is in its cubbyhole at any moment is still
there later, or has been written again, if the operations of the tidy do not fail, no lookup meets a
token without its lease, and no cubbyhole is written between the two lists. -/
theorem live_cubbyholes_kept (h : Separate s calls) (fuel depth : Nat)
    (before later : List (ι × StepEnv))
    (halong : Pool.Along machine (Undisturbed calls) (before ++ later)
      (startCalls calls fuel depth s))
    (item : CubbyholeItem)
    (hitem : item ∈ (Pool.runSchedule machine before
      (startCalls calls fuel depth s)).state.state.cubbyholes)
    (te : TokenEntry)
    (hte : (Pool.runSchedule machine (before ++ later)
      (startCalls calls fuel depth s)).state.state.entries.find te.saltedID = some te)
    (hkey : cubbyholeKey te = item.key) :
    ∃ item' ∈ (Pool.runSchedule machine (before ++ later)
        (startCalls calls fuel depth s)).state.state.cubbyholes,
      item'.key = item.key ∧ item'.path = item.path ∧
        (item' = item ∨ .writeCubbyhole item' ∈ (Pool.runSchedule machine (before ++ later)
          (startCalls calls fuel depth s)).state.log) := by
  have hcompatible := compatible_calls h
  obtain ⟨hsound, hhonours⟩ := honours_start h fuel depth
  have hstep : ∀ i env (c : Calls ι), Undisturbed calls i env c → ∀ op next,
      c.threads i = .call op next → (callContract (Known s calls) (calls i)).outcomes op c.state
        (exec env op c.state).1 (exec env op c.state).2 := by
    intro i env c hundisturbed op next hnext
    rw [Undisturbed, hnext] at hundisturbed
    obtain ⟨hfails, hlease, hwrite⟩ := hundisturbed
    cases hcall : calls i with
    | tidy => exact ⟨⟨env, hfails hcall, rfl⟩, hlease⟩
    | create entry u => exact ⟨⟨env, rfl⟩, hlease⟩
    | write stored path value =>
      rw [hcall] at hwrite
      exact ⟨⟨env, rfl⟩, hwrite⟩
  rw [Pool.runSchedule_append] at hte ⊢
  obtain ⟨hbefore, hlater⟩ := (Pool.along_append _ _ _ _ _).mp halong
  obtain ⟨hhonours₁, hsound₁⟩ := honours_runSchedule hcompatible
    (fun i _ _ => guar_sound (calls i)) hstep before _ hbefore hhonours hsound
  obtain ⟨-, hsound₂⟩ := honours_runSchedule hcompatible
    (fun i _ _ => guar_sound (calls i)) hstep later _ hlater hhonours₁ hsound₁
  -- The token is one of the known tokens, whose data every call keeps.
  obtain ⟨te', hte', halike⟩ := hsound₂.entries _ te hte
  have hknown : ∃ te, Known s calls te ∧ cubbyholeKey te = item.key :=
    ⟨te', hte', halike.cubbyholeKey.symm.trans hkey⟩
  have hkept : ∀ i w w', (callContract (Known s calls) (calls i)).guar w w' →
      (∃ item' ∈ w.state.cubbyholes, item'.key = item.key ∧ item'.path = item.path ∧
        (item' = item ∨ .writeCubbyhole item' ∈ w.log)) →
      ∃ item' ∈ w'.state.cubbyholes, item'.key = item.key ∧ item'.path = item.path ∧
        (item' = item ∨ .writeCubbyhole item' ∈ w'.log) := by
    rintro i w w' hguar ⟨item', hmem, hkey', hpath, hsame⟩
    have hdata := guar_data (calls i) hguar
    have hknown' : ∃ te, Known s calls te ∧ cubbyholeKey te = item'.key := by
      rw [hkey']
      exact hknown
    obtain ⟨item'', hmem', hkey'', hpath', hsame'⟩ := hdata.items item' hmem hknown'
    refine ⟨item'', hmem', hkey''.trans hkey', hpath'.trans hpath, ?_⟩
    rcases hsame' with rfl | hwritten
    · exact hsame.imp id fun hwritten => hdata.log hwritten
    · exact .inr hwritten
  exact (honours_runSchedule hcompatible hkept hstep later _ hlater hhonours₁
    ⟨item, hitem, rfl, rfl, .inl rfl⟩).2

end runs

def holder : TokenEntry where
  id := ofString "hvs.h"
  accessor := ofString "a"
  path := ofString "auth/token/create"
  cubbyholeID := ofString "c"
  id_ne_nil := by decide
  namespace_root := rootNamespaceID_root
  cubbyhole_ne_nil := by decide
  path_clean := createPath_clean

def holderItem : CubbyholeItem := ⟨.plain (ofString "c"), ofString "p", ofString "v"⟩

def holderStore : TokenState where
  entries := TokenTable.empty.put holder
  accessors := [(⟨ofString "a"⟩, .entry (ofString "hvs.h") (ofString "a") rootNamespaceID)]
  leases leaseID :=
    if leaseID.path = ofString "auth/token/create" then some ⟨leaseID.token.id, 10⟩ else none
  cubbyholes := [holderItem]

def failedRead : List (Unit × StepEnv) :=
  [((), {}), ((), {}), ((), {}), ((), { fails := true }), ((), {})]

theorem failed_read_destroys_cubbyhole :
    (Pool.runSchedule machine failedRead (startCalls (fun _ => .tidy) 5 2 holderStore)).threads () =
        .ret (.ok ()) ∧
      (Pool.runSchedule machine failedRead
        (startCalls (fun _ => .tidy) 5 2 holderStore)).state.state.entries.find holder.saltedID =
          some holder ∧
      holderStore.leases ⟨holder.path, holder.saltedID⟩ ≠ none ∧ 0 ≤ holder.numUses ∧
      holderItem ∈ holderStore.cubbyholes ∧ holderItem.key = cubbyholeKey holder ∧
      (Pool.runSchedule machine failedRead
        (startCalls (fun _ => .tidy) 5 2 holderStore)).state.state.cubbyholes = [] := by
  refine ⟨rfl, rfl, by decide, by decide, by decide, by decide, rfl⟩

def writeAndTidy : Bool → Call
  | false => .write holder (ofString "q") (ofString "w")
  | true => .tidy

theorem separate_sample : Separate holderStore writeAndTidy := by
  have hcreate : ∀ i entry u, writeAndTidy i ≠ .create entry u := by
    rintro (_ | _) entry u h
    · cases h
    · cases h
  have hknown : ∀ te, Known holderStore writeAndTidy te → te = holder := by
    rintro te (hstored | ⟨i, entry, u, hcall, -⟩)
    · by_cases hkey : te.saltedID = holder.saltedID
      · rw [hkey] at hstored
        cases hstored
        rfl
      · cases (TokenTable.find_put_of_ne TokenTable.empty hkey).symm.trans hstored
    · exact absurd hcall (hcreate i entry u)
  refine ⟨?_, fun i entry u h => absurd h (hcreate i entry u),
    fun i _ entry _ u _ h => absurd h (hcreate i entry u), ?_, ?_, ?_,
    fun _ _ i entry u h => absurd h (hcreate i entry u)⟩
  · rintro (_ | _) (_ | _) h h'
    · rfl
    · cases h
    · cases h'
    · rfl
  · exact fun te te' hte hte' _ => by rw [hknown te hte, hknown te' hte']
  · exact fun te te' hte hte' _ => by rw [hknown te hte, hknown te' hte']
  intro key te hfind
  have hkey := holderStore.entries.keyed key te hfind
  rw [hkey] at hfind
  rw [hknown te (.inl hfind)]
  exact ⟨_, rfl, rfl⟩

def firstWrite : List (Bool × StepEnv) := [(false, {})]

def thenTidy : List (Bool × StepEnv) := List.replicate 14 (true, {})

theorem written_item_kept :
    ∃ item' ∈ (Pool.runSchedule machine (firstWrite ++ thenTidy)
        (startCalls writeAndTidy 5 2 holderStore)).state.state.cubbyholes,
      item'.key = cubbyholeKey holder ∧ item'.path = ofString "q" ∧
        (item' = ⟨cubbyholeKey holder, ofString "q", ofString "w"⟩ ∨
          .writeCubbyhole item' ∈ (Pool.runSchedule machine (firstWrite ++ thenTidy)
            (startCalls writeAndTidy 5 2 holderStore)).state.log) :=
  live_cubbyholes_kept separate_sample 5 2 firstWrite thenTidy (by decide)
    ⟨cubbyholeKey holder, ofString "q", ofString "w"⟩ (by decide) holder (by rfl) (by rfl)

end VaultProofs.LiveCubbyholes
