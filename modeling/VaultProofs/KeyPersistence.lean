import VaultProofs.KeyOperations

/-!
What persisting a policy comes to, with what each failure leaves behind.
-/

namespace VaultProofs.KeyPersistence

open ProgramOutcomes GoSlices TransitKeys KeyOperations
open VaultEffects (GoError)

variable {b : Bool} {s : Trial} {err : KeyFault → Trial → Prop}

theorem finishes_policy {ok : Policy → Trial → Prop} :
    Finishes (faulty b) policy s ok err ↔ ok s.1.memory s := by
  rw [policy, finishes_plain rfl]
  exact ⟨fun h => h {}, fun h _ => h⟩

variable {ok : Unit → Trial → Prop}

theorem finishes_setPolicy {p : Policy} :
    Finishes (faulty b) (setPolicy p) s ok err ↔ ok () ({ s.1 with memory := p }, s.2) := by
  rw [setPolicy, finishes_plain rfl]
  exact ⟨fun h => h {}, fun h _ => h⟩

theorem finishes_setKey {version : Int} {entry : KeyEntry} :
    Finishes (faulty b) (setKey version entry) s ok err ↔
      ok () ({ s.1 with
        memory := { s.1.memory with keys := s.1.memory.keys.insert version entry },
        written := Function.update s.1.written version (some entry) }, s.2) := by
  rw [setKey, finishes_plain rfl]
  exact ⟨fun h => h {}, fun h _ => h⟩

theorem finishes_loadArchive {ok : List KeyEntry → Trial → Prop} :
    Finishes (faulty b) loadArchive s ok err ↔
      ok (s.1.archive.getD []) s ∧ ∀ n e, s.2 = n + 1 → err (.failed e) (s.1, n) := by
  rw [loadArchive, finishes_bind, finishes_stored rfl]
  exact and_congr_left fun _ => ⟨fun h => h {}, fun h _ => h⟩

theorem finishes_storeArchive {archive : List KeyEntry} :
    Finishes (faulty b) (storeArchive archive) s ok err ↔
      ok () ({ s.1 with archive := some archive }, s.2) ∧
        ∀ n e, s.2 = n + 1 → err (.failed e) (s.1, n) := by
  rw [storeArchive, finishes_stored rfl]
  exact and_congr_left fun _ => ⟨fun h => h {}, fun h _ => h⟩

theorem finishes_putPolicy {p : Policy} :
    Finishes (faulty b) (putPolicy p) s ok err ↔
      ok () ({ s.1 with stored := some p }, s.2) ∧
        ∀ n e, s.2 = n + 1 → err (.failed e) (s.1, n) := by
  rw [putPolicy, finishes_stored rfl]
  exact and_congr_left fun _ => ⟨fun h => h {}, fun h _ => h⟩

def Answered (e : KeyFault) : Prop := ∀ cause, e ≠ .panic cause

theorem answered_failed {err : GoError} : Answered (.failed err) :=
  fun _ => KeyFault.noConfusion

theorem answered_refusal {text : String} : Answered (refusal text) :=
  fun _ => KeyFault.noConfusion

/-- What an error of the body means after the deferred function ran. -/
def afterDefer (restore : Policy → Policy) (err : KeyFault → Trial → Prop) :
    KeyFault → Trial → Prop
  | .panic cause, s => err (.panic cause) s
  | e, s => err e ({ s.1 with memory := restore s.1.memory }, s.2)

theorem afterDefer_answered {restore : Policy → Policy} {e : KeyFault} (he : Answered e) :
    afterDefer restore err e s ↔ err e ({ s.1 with memory := restore s.1.memory }, s.2) := by
  cases e with
  | failed cause | refused text => exact Iff.rfl
  | panic cause => exact absurd rfl (he cause)

theorem finishes_restoring {α : Type} {restore : Policy → Policy} {body : KeyM α}
    {ok : α → Trial → Prop} :
    Finishes (faulty b) (restoring restore body) s ok err ↔
      Finishes (faulty b) body s ok (afterDefer restore err) := by
  rw [restoring, finishes_bind, finishes_capture]
  have hrestore : ∀ (e : KeyFault) (s' : Trial),
      Finishes (faulty b)
        (policy >>= fun p => setPolicy (restore p) >>= fun _ => (throw e : KeyM α)) s' ok err ↔
        err e ({ s'.1 with memory := restore s'.1.memory }, s'.2) := by
    intro e s'
    rw [finishes_bind, finishes_policy, finishes_bind, finishes_setPolicy]
    exact finishes_throw
  refine finishes_congr ?_
  rintro (e | text | cause) s'
  · exact hrestore _ s'
  · exact hrestore _ s'
  · rfl

/-- The policy and the archive that `moveToArchive` is about to store, unless an index
is out of range. -/
def archived (p : Policy) (archive : List KeyEntry) : Option (Policy × List KeyEntry) :=
  let filled := fillArchive (upTo (p.archiveVersion + 1) p.latestVersion) p (growArchive p archive)
  if filled.2.2 then trimArchive filled.1 filled.2.1 else none

def trimmedMinVersion (p : Policy) : Int :=
  if p.archiveMinVersion < p.minAvailableVersion then p.minAvailableVersion
  else p.archiveMinVersion

/-- The world after a failed write: the new beginning of the archive stays in memory. -/
def halfTrimmed (w : World) : World :=
  { w with memory := { w.memory with archiveMinVersion := trimmedMinVersion w.memory } }

theorem fillArchive_policy (versions : List Int) (p : Policy) (archive : List KeyEntry) :
    ∃ v, (fillArchive versions p archive).1 = { p with archiveVersion := v } := by
  induction versions generalizing p archive with
  | nil => exact ⟨p.archiveVersion, rfl⟩
  | cons i rest ih =>
    rw [fillArchive]
    split
    · exact ⟨p.archiveVersion, rfl⟩
    · rename_i archive' _
      obtain ⟨v, hv⟩ := ih { p with archiveVersion := i } archive'
      exact ⟨v, hv⟩

theorem archived_policy {p p' : Policy} {archive archive' : List KeyEntry}
    (h : archived p archive = some (p', archive')) :
    ∃ v, p' = { p with archiveVersion := v, archiveMinVersion := trimmedMinVersion p } := by
  simp only [archived] at h
  split at h
  · obtain ⟨v, hv⟩ := fillArchive_policy (upTo (p.archiveVersion + 1) p.latestVersion) p
      (growArchive p archive)
    rw [trimArchive, hv] at h
    refine ⟨v, ?_⟩
    split at h
    · rename_i hless
      rw [Option.map_eq_some_iff] at h
      obtain ⟨trimmed, -, heq⟩ := h
      cases heq
      rw [trimmedMinVersion, if_pos hless]
    · rename_i hless
      cases h
      rw [trimmedMinVersion, if_neg hless]
  · cases h

theorem loadKeys_policy (archive : List KeyEntry) (versions : List Int) (p : Policy) :
    ∃ keys, (loadKeys archive versions p).1 = { p with keys := keys } := by
  induction versions generalizing p with
  | nil => exact ⟨p.keys, rfl⟩
  | cons i rest ih =>
    rw [loadKeys]
    split
    · exact ⟨p.keys, rfl⟩
    · rename_i entry _
      obtain ⟨keys, hkeys⟩ := ih { p with keys := p.keys.insert i entry }
      exact ⟨keys, hkeys⟩

variable {p p' : Policy} {archive archive' : List KeyEntry}

theorem finishes_moveToArchive (hmoved : archived p archive = some (p', archive')) :
    Finishes (faulty b) (moveToArchive p archive) s ok err ↔
      ok () ({ s.1 with memory := dropKeys p', archive := some archive' }, s.2) ∧
        ∀ n e, s.2 = n + 1 → err (.failed e) ({ s.1 with memory := p' }, n) := by
  simp only [archived] at hmoved
  split at hmoved
  · rename_i hfilled
    rw [moveToArchive, finishes_bind, finishes_setPolicy, if_pos hfilled, hmoved]
    simp only [finishes_bind, finishes_setPolicy, finishes_storeArchive]
  · cases hmoved

def Policy.containsMinimum (p : Policy) : Bool :=
  (p.keys.lookup p.minDecryptionVersion).isSome

def persistError (p : Policy) : Option KeyFault :=
  if p.deleted then some (fault "key has been deleted, not persisting")
  else
    match checkVersions p (Policy.containsMinimum p) with
    | .error e => some e
    | .ok _ => none

variable {e : KeyFault}

theorem checkVersions_error {c : Bool} (h : checkVersions p c = .error e) :
    ∃ cause, e = .failed cause := by
  simp only [checkVersions] at h
  repeat' split at h
  all_goals cases h
  all_goals exact ⟨_, rfl⟩

theorem persistError_failed (h : persistError p = some e) : ∃ cause, e = .failed cause := by
  rw [persistError] at h
  split at h
  · cases h
    exact ⟨_, rfl⟩
  split at h
  · rename_i hcheck
    cases h
    exact checkVersions_error hcheck
  · cases h

theorem persistError_of_latest (h : p.latestVersion < 1) :
    ∃ cause, persistError p = some (.failed cause) := by
  rw [persistError]
  split
  · exact ⟨_, rfl⟩
  by_cases hdec : p.minDecryptionVersion < 1
  · simp only [checkVersions, if_pos hdec]
    exact ⟨_, rfl⟩
  · simp only [checkVersions, if_neg hdec, if_pos h]
    exact ⟨_, rfl⟩

theorem finishes_persist_refused (h : persistError s.1.memory = some e) :
    Finishes (faulty b) persist s ok err ↔ err e s := by
  rw [persist, finishes_bind, finishes_policy]
  rw [persistError] at h
  split at h
  · rename_i hdeleted
    cases h
    rw [if_pos hdeleted]
    exact finishes_throw
  rename_i hdeleted
  split at h
  · rename_i e' hcheck
    cases h
    obtain ⟨cause, rfl⟩ := checkVersions_error hcheck
    rw [if_neg hdeleted, finishes_restoring, finishes_bind, handleArchiving, finishes_bind,
      finishes_policy, finishes_bind]
    change Finishes (faulty b) (resume (checkVersions s.1.memory
      (Policy.containsMinimum s.1.memory))) s _ _ ↔ _
    rw [hcheck]
    exact finishes_resume
  · cases h

theorem not_deleted_of_persistError (h : persistError p = none) :
    ¬ p.deleted = true ∧ checkVersions p (Policy.containsMinimum p) = .ok () := by
  rw [persistError] at h
  split at h
  · cases h
  rename_i hdeleted
  split at h
  · cases h
  · rename_i hcheck
    exact ⟨hdeleted, hcheck⟩

theorem finishes_persist (h : persistError s.1.memory = none) :
    Finishes (faulty b) persist s ok err ↔
      Finishes (faulty b)
        (if Policy.containsMinimum s.1.memory then
          moveToArchive s.1.memory (s.1.archive.getD [])
        else moveFromArchive s.1.memory (s.1.archive.getD []))
        s
        (fun _ s' => ok () ({ s'.1 with stored := some s'.1.memory }, s'.2) ∧
          ∀ n e, s'.2 = n + 1 → err (.failed e)
            ({ s'.1 with memory := { s'.1.memory with
                archiveVersion := s.1.memory.archiveVersion, keys := s.1.memory.keys } }, n))
        (afterDefer (fun p => { p with
          archiveVersion := s.1.memory.archiveVersion, keys := s.1.memory.keys }) err) ∧
      ∀ n e, s.2 = n + 1 → err (.failed e) (s.1, n) := by
  obtain ⟨hdeleted, hcheck⟩ := not_deleted_of_persistError h
  rw [persist, finishes_bind, finishes_policy, if_neg hdeleted, finishes_restoring, finishes_bind,
    handleArchiving, finishes_bind, finishes_policy, finishes_bind]
  change Finishes (faulty b) (resume (checkVersions s.1.memory
    (Policy.containsMinimum s.1.memory))) s _ _ ↔ _
  rw [hcheck]
  simp only [finishes_resume, outcomePost, finishes_bind, finishes_loadArchive, finishes_policy,
    finishes_putPolicy]
  rfl

/-- Persisting a policy whose keys go to the archive. A failed archive write leaves the new
beginning of the archive in memory, a failed policy write also the new archive in storage. -/
theorem finishes_persist_toArchive (h : persistError s.1.memory = none)
    (hmin : Policy.containsMinimum s.1.memory = true)
    (hmoved : archived s.1.memory (s.1.archive.getD []) = some (p', archive')) :
    Finishes (faulty b) persist s ok err ↔
      ok () ({ s.1 with
        memory := dropKeys p', stored := some (dropKeys p'), archive := some archive' }, s.2) ∧
      ∀ n e, s.2 = n + 1 →
        err (.failed e) (s.1, n) ∧
        err (.failed e) (halfTrimmed s.1, n) ∧
        err (.failed e) ({ halfTrimmed s.1 with archive := some archive' }, n) := by
  rw [finishes_persist h, if_pos hmin, finishes_moveToArchive hmoved]
  obtain ⟨v, hp'⟩ := archived_policy hmoved
  subst hp'
  constructor
  · rintro ⟨⟨⟨hok, hpolicy⟩, hwrite⟩, hload⟩
    exact ⟨hok, fun n e hn => ⟨hload n e hn, hwrite n e hn, hpolicy n e hn⟩⟩
  · rintro ⟨hok, hfail⟩
    exact ⟨⟨⟨hok, fun n e hn => (hfail n e hn).2.2⟩, fun n e hn => (hfail n e hn).2.1⟩,
      fun n e hn => (hfail n e hn).1⟩

theorem finishes_persist_fromArchive (h : persistError s.1.memory = none)
    (hmin : Policy.containsMinimum s.1.memory = false)
    (hmoved : loadKeys (s.1.archive.getD [])
      (upTo s.1.memory.minDecryptionVersion s.1.memory.latestVersion) s.1.memory = (p', true)) :
    Finishes (faulty b) persist s ok err ↔
      ok () ({ s.1 with memory := p', stored := some p' }, s.2) ∧
      ∀ n e, s.2 = n + 1 → err (.failed e) (s.1, n) := by
  have hcond : ¬ Policy.containsMinimum s.1.memory = true := by
    rw [hmin]
    exact Bool.false_ne_true
  rw [finishes_persist h, if_neg hcond, moveFromArchive, finishes_bind, finishes_setPolicy, hmoved,
    if_pos rfl, finishes_pure]
  obtain ⟨keys, hkeys⟩ := loadKeys_policy (s.1.archive.getD [])
    (upTo s.1.memory.minDecryptionVersion s.1.memory.latestVersion) s.1.memory
  rw [hmoved] at hkeys
  have hp' : p' = { s.1.memory with keys := keys } := hkeys
  subst hp'
  constructor
  · rintro ⟨⟨hok, -⟩, hload⟩
    exact ⟨hok, hload⟩
  · rintro ⟨hok, hfail⟩
    exact ⟨⟨hok, hfail⟩, hfail⟩

end VaultProofs.KeyPersistence
