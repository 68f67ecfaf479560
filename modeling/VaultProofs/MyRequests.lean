import VaultProofs.AuditTrail

/-!
The requests a caller is shown: the parked entries, then the history records.
-/

namespace VaultProofs.MyRequests

open GoStrings JsonValues EffectPrograms ApprovalEntries VaultEffects ApprovalInterceptor
open ApprovalExecution ListingHandlers ApprovalRuns EntryRegistry HandlerMoves AuditTrail

def requestRows (reply : Reply) : List GoValue :=
  match reply.resp.bind fun resp => lastValue resp.data (ofString "requests") with
  | some (.slice rows) => rows
  | _ => []

def rowID : GoValue → Option GoValue
  | .map row => lastValue row (ofString "request_id")
  | _ => none

def requestIDs (reply : Reply) : List (Option GoValue) :=
  (requestRows reply).map rowID

def DeniedTwice (now : Time) (req : Request) (store : Store) : Prop :=
  req.entityID ≠ "" ∧ ∃ id p h, storedPending store id = some p ∧
    p.requesterEntityID = req.entityID ∧ p.status = .denied ∧
    storedHistory store id = some h ∧ now ≤ h.historyExpiresAt

variable {env : Env} {store : Store} {entityID : String}

def showsEntry (now : Time) (entityID : String) (store : Store) (id : String) : Bool :=
  (storedPending store id).any fun p => p.requesterEntityID = entityID && !outdated p now

def showsRecord (now : Time) (entityID : String) (store : Store) (id : String) : Bool :=
  (storedHistory store id).any fun h =>
    h.requesterEntityID = entityID && !decide (h.historyExpiresAt < now)

theorem showsEntry_iff {now : Time} {id : String} :
    showsEntry now entityID store id = true ↔ ∃ p, storedPending store id = some p ∧
      p.requesterEntityID = entityID ∧ outdated p now = false := by
  simp [showsEntry, Option.any_eq_true]

theorem showsRecord_iff {now : Time} {id : String} :
    showsRecord now entityID store id = true ↔ ∃ h, storedHistory store id = some h ∧
      h.requesterEntityID = entityID ∧ now ≤ h.historyExpiresAt := by
  simp [showsRecord, Option.any_eq_true]

def idCell (id : String) : Option GoValue :=
  some (textValue id)

theorem idCell_injective : Function.Injective idCell := by
  intro id id' h
  simpa [idCell, textValue] using h

theorem rowID_myRequestRow (p : PendingRequest) : rowID (myRequestRow p) = idCell p.requestID := by
  have hlast : lastValue (if p.approvedAt ≠ 0 then
      [(ofString "approved_at", GoValue.time p.approvedAt)] else []) (ofString "request_id") =
      none := by
    split <;> simp
  simp only [myRequestRow, rowID, idCell, lastValue_append, hlast]
  simp

theorem run_myRequestRows (henv : env.Reliable) (hkeyed : Keyed store) (req : Request)
    {keys : List String} (hnodup : keys.Nodup) (w : World)
    (hsame : ∀ key ∈ keys, storedPending w.store key = storedPending store key) :
    ((myRequestRows req keys).run (exec env) w).1.map rowID =
        (keys.filter (showsEntry env.now req.entityID store)).map idCell ∧
      ∀ id, storedHistory ((myRequestRows req keys).run (exec env) w).2.store id =
        storedHistory w.store id := by
  induction keys generalizing w with
  | nil => exact ⟨rfl, fun _ => rfl⟩
  | cons key rest ih =>
    obtain ⟨hnew, hrest⟩ := List.nodup_cons.mp hnodup
    have htick := ih hrest w.tick fun k hk => hsame k (.tail _ hk)
    have hdelete := ih hrest (w.tick.delete (pendingKey key)) (by
      intro k hk
      have hne : k ≠ key := fun h => hnew (h ▸ hk)
      rw [← hsame k (.tail _ hk)]
      exact storedPending_erase_of_ne _ _ (pendingKey_ne (Ne.symm hne)))
    have hread := hsame key (.head _)
    unfold myRequestRows
    rw [Prog.run_bind, run_getPendingRequest, exec_storageGet henv]
    split
    · rename_i p hfound
      have hp : storedPending store key = some p :=
        hread.symm.trans ((decodeEntry_eq_some_iff _ _ _).mp hfound)
      split
      · rename_i hother
        rw [List.filter_cons_of_neg (by simp [showsEntry, hp, hother])]
        exact htick
      rename_i hown
      rw [Prog.run_bind, run_timeNow]
      split
      · rename_i hlate
        rw [Prog.run_bind, run_storageDelete henv,
          List.filter_cons_of_neg (by simp [showsEntry, hp, hlate])]
        refine ⟨hdelete.1, fun id => (hdelete.2 id).trans ?_⟩
        exact congrArg (Option.bind · _) (AList.lookup_erase_ne nofun)
      rename_i hlive
      rw [Prog.run_bind, List.filter_cons_of_pos (by
        simp [showsEntry, hp, not_not.mp hown, hlive])]
      refine ⟨?_, htick.2⟩
      rw [List.map_cons, ← htick.1, ← hkeyed key p hp, ← rowID_myRequestRow]
      rfl
    rename_i hfound
    have hnone : showsEntry env.now req.entityID store key = false := by
      unfold showsEntry
      rw [← hread]
      cases hp : storedPending w.store key with
      | none => rfl
      | some p => exact (hfound p ((decodeEntry_eq_some_iff _ _ _).mpr hp)).elim
    rw [List.filter_cons_of_neg (by rw [hnone]; decide)]
    exact htick

def KeyedHistory (store : Store) : Prop :=
  ∀ id h, storedHistory store id = some h → h.requestID = id

theorem run_liveHistory (henv : env.Reliable) (hkeyed : KeyedHistory store) (entityID : String)
    {keys : List String} (hnodup : keys.Nodup) (w : World)
    (hsame : ∀ key ∈ keys, storedHistory w.store key = storedHistory store key) :
    (((liveHistory env.now keys).run (exec env) w).1.filter
        fun h => h.requesterEntityID == entityID).map ApprovalHistoryEntry.requestID =
      keys.filter (showsRecord env.now entityID store) := by
  induction keys generalizing w with
  | nil => rfl
  | cons key rest ih =>
    obtain ⟨hnew, hrest⟩ := List.nodup_cons.mp hnodup
    have htick := ih hrest w.tick fun k hk => hsame k (.tail _ hk)
    have hread := hsame key (.head _)
    have hget : (storageGet (historyKey key)).run (exec env) w =
        (.ok (w.store.lookup (historyKey key)), w.tick) := exec_storageGet henv _ w
    unfold liveHistory
    rw [Prog.run_bind, hget]
    split
    · rename_i h hfound
      have hh : storedHistory store key = some h :=
        hread.symm.trans ((decodeEntry_eq_some_iff _ _ _).mp hfound)
      split
      · rename_i hold
        rw [Prog.run_bind, run_storageDelete henv,
          List.filter_cons_of_neg (by simp [showsRecord, hh, hold])]
        apply ih hrest
        intro k hk
        have hne : k ≠ key := fun h => hnew (h ▸ hk)
        rw [← hsame k (.tail _ hk)]
        exact congrArg (Option.bind · _) (AList.lookup_erase_ne (historyKey_ne hne))
      rename_i hkept
      rw [Prog.run_bind]
      by_cases hown : h.requesterEntityID = entityID
      · rw [List.filter_cons_of_pos (by simpa [showsRecord, hh, hown] using hkept), ← htick,
          ← hkeyed key h hh]
        simp [hown]
      · rw [List.filter_cons_of_neg (by simp [showsRecord, hh, hown]), ← htick]
        simp [hown]
    rename_i hfound
    have hnone : showsRecord env.now entityID store key = false := by
      unfold showsRecord
      rw [← hread]
      cases hh : storedHistory w.store key with
      | none => rfl
      | some h => exact (hfound h ((decodeEntry_eq_some_iff _ _ _).mpr hh)).elim
    rw [List.filter_cons_of_neg (by rw [hnone]; decide)]
    exact htick

theorem run_storageList (henv : env.Reliable) (folder : Folder) (w : World) :
    (storageList folder).run (exec env) w =
      (.ok (env.listOrder (folderNames w.store folder)), w.tick) :=
  exec_storageList henv folder w

theorem run_listHistoryEntriesForUser (henv : env.Reliable) (entityID : String) (w : World) :
    ((listHistoryEntriesForUser entityID).run (exec env) w).1 =
      .ok (((liveHistory env.now (env.listOrder (folderNames w.store .history))).run
        (exec env) w.tick).1.filter fun h => h.requesterEntityID == entityID) := by
  unfold listHistoryEntriesForUser listAllHistoryEntries
  rw [Prog.run_bind, Prog.run_bind, run_storageList henv]
  rw [Prog.run_bind, run_timeNow]
  rw [Prog.run_bind]
  rfl

theorem requestIDs_dataReply (rows : List GoValue) :
    requestIDs (dataReply [(ofString "requests", .slice rows)]) = rows.map rowID := by
  simp [requestIDs, requestRows, dataReply]

theorem requestIDs_myRequests (henv : env.Reliable) {w : World} (hkeyed : Keyed w.store)
    (hhistory : KeyedHistory w.store) {req : Request} (hentity : req.entityID ≠ "") :
    ∃ names : List String, names.Nodup ∧
      (∀ id h, storedHistory w.store id = some h → id ∈ names) ∧
      requestIDs ((handleApprovalMyRequests req).run (exec env) w).1 =
        ((env.listOrder (folderNames w.store .pending)).filter
            (showsEntry env.now req.entityID w.store) ++
          names.filter (showsRecord env.now req.entityID w.store)).map idCell := by
  have hpending : (env.listOrder (folderNames w.store .pending)).Nodup :=
    (env.listOrder_perm _).nodup_iff.mpr (nodup_folderNames _ _)
  obtain ⟨hrows, hkept⟩ := run_myRequestRows henv hkeyed req hpending w.tick fun _ _ => rfl
  -- The world in which the history is listed.
  generalize hmid : ((myRequestRows req (env.listOrder (folderNames w.store .pending))).run
    (exec env) w.tick).2 = mid at hkept
  have hperm := env.listOrder_perm (folderNames mid.store .history)
  have hnames := hperm.nodup_iff.mpr (nodup_folderNames mid.store .history)
  refine ⟨_, hnames, ?_, ?_⟩
  · intro id h hh
    obtain ⟨blob, hblob, -⟩ := Option.bind_eq_some_iff.mp ((hkept id).trans hh)
    exact hperm.mem_iff.mpr (mem_folderNames_of_lookup hblob)
  have hrecords := run_liveHistory henv hhistory req.entityID hnames mid.tick
    fun id _ => hkept id
  unfold handleApprovalMyRequests
  rw [if_neg hentity, Prog.run_bind, run_storageList henv]
  rw [Prog.run_bind, hmid, Prog.run_bind, run_listHistoryEntriesForUser henv]
  simp only [Prog.pure_eq_ret, Prog.run_ret]
  rw [requestIDs_dataReply, List.map_append, hrows, List.map_append, ← hrecords, List.map_map,
    List.map_map]
  congr 2

variable {s : Step} {r : Registry} {id : String} {slot : Slot}

/-- Entry and record of a slot belong together: beside a record there is at most the
denied entry it was written for. -/
structure Consistent (id : String) (slot : Slot) : Prop where
  entryID : ∀ p, slot.entry = some p → p.requestID = id
  recordID : ∀ h, slot.record = some h → h.requestID = id
  resolved : ∀ h p, slot.record = some h → slot.entry = some p →
    p.status = .denied ∧ p.requesterEntityID = h.requesterEntityID

theorem consistent_without_entry {record : Option ApprovalHistoryEntry}
    (hrecord : ∀ h, record = some h → h.requestID = id) : Consistent id ⟨none, record⟩ where
  entryID p hp := by cases hp
  recordID := hrecord
  resolved h p _ hp := by cases hp

theorem consistent_of_move
    (hfresh : ∀ bypass auth req, s.call = .request bypass auth req → s.env.uuid = .ok id →
      (r id).record = none)
    (h : Consistent id (r id)) (hmove : Move s store r id slot) : Consistent id slot := by
  cases hmove with
  | park hcall huuid =>
    have hnone := hfresh _ _ _ hcall huuid
    refine ⟨?_, h.recordID, ?_⟩
    · rintro p ⟨⟩
      rfl
    · intro record p hrecord
      rw [hnone] at hrecord
      cases hrecord
  | @vote req p q hcall hentry hstatus hlive hwritten =>
    refine ⟨?_, h.recordID, ?_⟩
    · rintro q' ⟨⟩
      have hid := congrArg PendingRequest.requestID hwritten.parked_eq
      exact Eq.trans hid (h.entryID p hentry)
    intro record q' hrecord
    have hdenied := (h.resolved record p hrecord hentry).1
    rw [hstatus] at hdenied
    cases hdenied
  | @deny req p name hcall hentry =>
    refine ⟨?_, ?_, ?_⟩
    · rintro q ⟨⟩
      exact h.entryID p hentry
    · rintro record ⟨⟩
      exact h.entryID p hentry
    · rintro record q ⟨⟩ ⟨⟩
      exact ⟨rfl, rfl⟩
  | @retrieve req p _ _ hcall hentry | @expire req p _ _ hcall hentry =>
    apply consistent_without_entry
    rintro record ⟨⟩
    exact h.entryID p hentry
  | clear | drop => exact consistent_without_entry h.recordID
  | purge =>
    refine ⟨h.entryID, ?_, ?_⟩
    · rintro record ⟨⟩
    · rintro record q ⟨⟩

theorem record_none_of_move {req : Request} {bypass : Bool} {auth : Option (List String)}
    (hcall : s.call = .request bypass auth req) (h : (r id).record = none)
    (hmove : Move s store r id slot) : slot.record = none := by
  cases hmove with
  | park | vote | clear | drop => exact h
  | deny hdeny => rw [hcall] at hdeny; cases hdeny
  | retrieve hfetch | expire hfetch => rw [hcall] at hfetch; cases hfetch
  | purge => rfl

theorem consistent_finalWorld {steps : List Step} (hreliable : ∀ s ∈ steps, s.env.Reliable)
    (hfresh : FreshIDs steps) (id : String) :
    Consistent id (registry (finalWorld steps).store id) := by
  induction steps using List.reverseRecOn with
  | nil => exact consistent_without_entry fun h hh => by cases hh
  | append_singleton steps s ih =>
    have hbefore := ih (fun s' hs' => hreliable s' (List.mem_append_left _ hs')) hfresh.of_append
    have hleads := Step.leads s (hreliable s (by simp)) _ (keyed_finalWorld steps)
    rw [finalWorld_concat]
    refine (hleads.keeps_at (K := fun slot => Consistent id slot ∧
      ∀ bypass auth req, s.call = .request bypass auth req → s.env.uuid = .ok id →
        slot.record = none) ?_ ⟨hbefore, ?_⟩).1
    · rintro r slot ⟨hr, hrecord⟩ hmove
      refine ⟨consistent_of_move hrecord hr hmove, ?_⟩
      intro bypass auth req hcall huuid
      exact record_none_of_move hcall (hrecord bypass auth req hcall huuid) hmove
    · intro bypass auth req hcall huuid
      exact (hfresh.last bypass auth req id hcall huuid).2

/-- After every run the caller's requests are listed once each, unless one was denied and its record
is still kept. -/
theorem nodup_requestIDs_iff (steps : List Step) (hreliable : ∀ s ∈ steps, s.env.Reliable)
    (hfresh : FreshIDs steps) {env : Env} (henv : env.Reliable) (req : Request) :
    (requestIDs ((handleApprovalMyRequests req).run (exec env) (finalWorld steps)).1).Nodup ↔
      ¬ DeniedTwice env.now req (finalWorld steps).store := by
  have hconsistent := consistent_finalWorld hreliable hfresh
  by_cases hentity : req.entityID = ""
  · have hrows : requestIDs ((handleApprovalMyRequests req).run (exec env)
        (finalWorld steps)).1 = [] := by
      unfold handleApprovalMyRequests
      rw [if_pos hentity]
      rfl
    rw [hrows]
    exact iff_of_true List.nodup_nil fun h => h.1 hentity
  obtain ⟨names, hnames, hmem, hids⟩ := requestIDs_myRequests henv (keyed_finalWorld steps)
    (fun id h hh => (hconsistent id).recordID h hh) hentity
  have hpending := (env.listOrder_perm _).nodup_iff.mpr
    (nodup_folderNames (finalWorld steps).store .pending)
  rw [hids, List.nodup_map_iff idCell_injective, List.nodup_append]
  constructor
  · rintro ⟨-, -, hdisjoint⟩ ⟨-, id, p, h, hp, hown, hdenied, hh, hkept⟩
    have hsame := ((hconsistent id).resolved h p hh hp).2
    refine hdisjoint id (List.mem_filter.mpr ⟨?_, ?_⟩) id (List.mem_filter.mpr ⟨?_, ?_⟩) rfl
    · exact (env.listOrder_perm _).mem_iff.mpr (mem_folderNames hp)
    · exact showsEntry_iff.mpr ⟨p, hp, hown, by simp [outdated, hdenied]⟩
    · exact hmem id h hh
    · exact showsRecord_iff.mpr ⟨h, hh, hsame.symm.trans hown, hkept⟩
  intro hnot
  refine ⟨hpending.filter _, hnames.filter _, ?_⟩
  rintro id hentry _ hrecord rfl
  obtain ⟨p, hp, hown, -⟩ := showsEntry_iff.mp (List.mem_filter.mp hentry).2
  obtain ⟨h, hh, -, hkept⟩ := showsRecord_iff.mp (List.mem_filter.mp hrecord).2
  have hdenied := ((hconsistent id).resolved h p hh hp).1
  exact hnot ⟨hentity, id, p, h, hp, hown, hdenied, hh, hkept⟩

def denyStep : Step :=
  ⟨sampleCore, sampleEnv, .deny sampleApprover "5d2b6e0c"⟩

/-- The denied request is listed as an entry and as a history record. -/
theorem repeated_afterDenial :
    (∀ s ∈ afterRequest denyStep, s.env.Reliable) ∧ FreshIDs (afterRequest denyStep) ∧
    requestIDs ((handleApprovalMyRequests sampleRequest).run (exec sampleEnv)
      (finalWorld (afterRequest denyStep))).1 =
        [some (textValue "5d2b6e0c"), some (textValue "5d2b6e0c")] :=
  ⟨reliable_afterRequest fun _ _ => rfl, freshIDs_afterRequest (by simp [denyStep]), rfl⟩

theorem nodup_afterExpiry :
    (requestIDs ((handleApprovalMyRequests sampleRequest).run (exec sampleEnv)
      (finalWorld (afterRequest (lateStep (.fetch sampleRequest "5d2b6e0c"))))).1).Nodup := by
  refine (nodup_requestIDs_iff _ (reliable_afterRequest fun _ _ => rfl)
    (freshIDs_afterRequest (by simp [lateStep])) (fun _ _ => rfl) sampleRequest).mpr ?_
  rintro ⟨-, id, p, h, hp, -⟩
  have hnone : storedPending (finalWorld
      (afterRequest (lateStep (.fetch sampleRequest "5d2b6e0c")))).store id = none := rfl
  cases hp

end VaultProofs.MyRequests
