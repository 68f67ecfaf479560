import VaultProofs.FailedKeyOperations

/-!
Updates of key versions over whole runs. The archive gets the entry of a version once, when it is
new, and later updates do not reach it; a lower minimum decryption version puts the archived entries
back among the keys.
-/

namespace VaultProofs.KeyUpdates

open GoStrings EffectPrograms ProgramOutcomes GoSlices TransitKeys KeyOperations KeyPersistence
open KeyAlignment KeyRequests FailedKeyOperations
open VaultEffects (GoError)
open KeyArchive (NewPolicy newPolicy_sameRing noFormats persist_of_checked
  persist_movable persist_lowered finishes_trim finishes_configWrite)

inductive KeyCall where
  | operation (op : KeyOperation)
  | upgrade

def answer (formats : KeyFormats) : KeyCall → KeyM Unit
  | .operation op => operate formats op
  | .upgrade => upgrade

structure Called where
  call : KeyCall
  env : Nat → StepEnv := fun _ => {}

def runCall (formats : KeyFormats) (w : World) (c : Called) : Except KeyFault Unit × World :=
  runFrom exec c.env (answer formats c.call).run w

def runCalls (formats : KeyFormats) (w : World) (cs : List Called) : World :=
  cs.foldl (fun w c => (runCall formats w c).2) w

def archivedEntry (w : World) (v : Int) : Option KeyEntry :=
  w.archive.bind fun archive => slot archive (v - w.memory.minAvailableVersion)

/-- A request for a lower minimum decryption version finds the archive up to date: it has
the last entry written for each version that is to come back. -/
def UpToDate (w : World) : KeyCall → Prop
  | .operation (.configure req) =>
    requestedDecryption req w.memory < w.memory.minDecryptionVersion →
      ∀ v, requestedDecryption req w.memory ≤ v → v ≤ w.memory.latestVersion →
        archivedEntry w v = w.written v
  | _ => True

def UpToDateRun (formats : KeyFormats) (w : World) : List Called → Prop
  | [] => True
  | c :: cs => UpToDate w c.call ∧ UpToDateRun formats (runCall formats w c).2 cs

/-- A key that is not deleted and whose versions have the entries last written for them; the archive
may have others. -/
structure Current (w : World) : Prop where
  deleted : w.memory.deleted = false
  key : w.memory.key = []
  minimums : ¬ (0 < w.memory.minEncryptionVersion ∧
    w.memory.minEncryptionVersion < w.memory.minDecryptionVersion)
  ring : NewPolicy w.memory ∧ w.archive = none ∨
    ∃ archive kept, w.archive = some archive ∧ Aligned w.memory archive w.written kept

theorem Current.sameRing {w w' : World} (h : Current w) (hring : SameRing w.memory w'.memory)
    (hdeleted : w'.memory.deleted = w.memory.deleted) (hkey : w'.memory.key = w.memory.key)
    (henc : w'.memory.minEncryptionVersion = w.memory.minEncryptionVersion)
    (harchive : w'.archive = w.archive) (hwritten : w'.written = w.written) : Current w' where
  deleted := hdeleted.trans h.deleted
  key := hkey.trans h.key
  minimums := by
    rw [henc, hring.minDecryption]
    exact h.minimums
  ring := by
    rw [harchive, hwritten]
    rcases h.ring with ⟨hnew, hnone⟩ | ⟨archive, kept, hsome, haligned⟩
    · exact .inl ⟨newPolicy_sameRing hnew hring, hnone⟩
    · exact .inr ⟨archive, kept, hsome, aligned_sameRing haligned hring⟩

theorem Current.written_eq {w : World} (h : Current w) {v : Int} {entry : KeyEntry}
    (hlookup : w.memory.keys.lookup v = some entry) : w.written v = some entry := by
  rcases h.ring with ⟨hnew, -⟩ | ⟨archive, kept, -, haligned⟩
  · rw [hnew.keys] at hlookup
    cases hlookup
  · exact (mem_of_lookup haligned hlookup).2.2

theorem Current.aligned {w : World} (h : Current w) :
    ∃ kept, NewPolicy w.memory ∨ Aligned w.memory (w.archive.getD []) w.written kept := by
  rcases h.ring with ⟨hnew, -⟩ | ⟨archive, kept, hsome, haligned⟩
  · exact ⟨w.written, .inl hnew⟩
  · rw [hsome]
    exact ⟨kept, .inr haligned⟩

variable {b : Bool} {w : World} {own kept : Entries} {lo : Int} {ok : Unit → Trial → Prop}
  {err : KeyFault → Trial → Prop}

theorem minimums_of_persistError {p : Policy} (h : persistError p = none) :
    ¬ (0 < p.minEncryptionVersion ∧ p.minEncryptionVersion < p.minDecryptionVersion) := by
  intro hwrong
  have hcheck := (not_deleted_of_persistError h).2
  simp only [checkVersions] at hcheck
  repeat' split at hcheck
  all_goals cases hcheck

theorem current_of_persisted {w' : World} {archive : List KeyEntry}
    (hnone : persistError w.memory = none) (hkey : w.memory.key = [])
    (hsame : w'.memory.deleted = w.memory.deleted ∧ w'.memory.key = w.memory.key ∧
      w'.memory.minEncryptionVersion = w.memory.minEncryptionVersion ∧
      w'.memory.minDecryptionVersion = w.memory.minDecryptionVersion)
    (hsome : w'.archive = some archive) (h : Aligned w'.memory archive w'.written kept) :
    Current w' where
  deleted := hsame.1.trans (by simpa using (not_deleted_of_persistError hnone).1)
  key := hsame.2.1.trans hkey
  minimums := by
    rw [hsame.2.2.1, hsame.2.2.2]
    exact minimums_of_persistError hnone
  ring := .inr ⟨archive, kept, hsome, h⟩

theorem persist_current (h : Movable w.memory (w.archive.getD []) w.written kept lo)
    (hnone : persistError w.memory = none) (hkey : w.memory.key = [])
    (hok : ∀ w', Current w' → ok () (w', 0)) : Finishes (faulty b) persist (w, 0) ok err :=
  persist_movable (fun _ hsome => nomatch hnone.symm.trans hsome) h (fun _ _ haligned =>
    hok _ (current_of_persisted hnone hkey ⟨rfl, rfl, rfl, rfl⟩ rfl haligned)) nofun

/-- The call ends in a world in which the key is current, with an error or without. -/
def Stays (w : World) {α : Type} (x : KeyM α) : Prop :=
  Finishes (faulty true) x (w, 0) (fun _ s => s.2 = 0 ∧ Current s.1) fun _ s =>
    s.2 = 0 ∧ Current s.1

variable {formats : KeyFormats}

theorem stays_read {α : Type} {x : KeyM α} {f : α → KeyM Unit} (hw : Current w)
    (hx : Reads true x) (hf : ∀ value, Stays w (f value)) : Stays w (x >>= f) := by
  rw [Stays, finishes_bind]
  refine (hx (w, 0)).mono ?_ ?_
  · rintro value s' rfl
    exact hf value
  · rintro e s' ⟨rfl, -⟩
    exact ⟨rfl, hw⟩

theorem Current.movable_added (hw : Current w) (entry : KeyEntry) :
    ∃ kept lo, Movable (added w entry).memory (w.archive.getD []) (added w entry).written kept lo ∧
      persistError (added w entry).memory = none := by
  have hmovable : ∃ kept lo, Movable (added w entry).memory (w.archive.getD [])
      (added w entry).written kept lo := by
    rcases hw.ring with ⟨hnew, hnone⟩ | ⟨archive, kept, hsome, haligned⟩
    · rw [hnone]
      exact ⟨_, 1, movable_first hnew.latest hnew.keys hnew.archive hnew.archiveMin hnew.available
        hnew.minDecryption entry w.written⟩
    · rw [hsome]
      exact ⟨_, _, movable_grown haligned entry⟩
  obtain ⟨kept, lo, hmovable⟩ := hmovable
  refine ⟨kept, lo, hmovable, hmovable.persistError_eq hw.deleted ?_⟩
  have hminimums := hw.minimums
  simp only [added, grown]
  split
  · omega
  · exact hminimums

theorem stays_rotate (hw : Current w) : Stays w (rotate formats) := by
  rw [Stays, rotate, finishes_bind, finishes_policy]
  split
  · exact ⟨rfl, hw⟩
  rw [finishes_restoring, finishes_bind]
  refine finishes_rotateInMemory (fun entry => ?_) fun cause => ⟨rfl, hw⟩
  rw [finishes_bind, finishes_policy, finishes_bind, finishes_setPolicy]
  obtain ⟨kept, lo, hmovable, hnone⟩ := hw.movable_added entry
  exact persist_current (movable_sameRing hmovable) hnone hw.key
    fun w' hw' => ⟨rfl, hw'⟩

variable {p : Policy} {key : GoString} {entry : KeyEntry}

theorem stays_addImported (hw : Current w) {isPrivateKey : Bool} :
    Stays w (addImported formats p key isPrivateKey entry) := by
  refine stays_read hw reads_withHMACKey fun entry => ?_
  rw [Stays, finishes_bind, finishes_resume]
  cases himported : importedEntry formats p key isPrivateKey entry with
  | error e => exact ⟨rfl, hw⟩
  | ok imported =>
    simp only [outcomePost, finishes_bind, finishes_policy, finishes_setPolicy,
      finishes_addVersion]
    have hsized : Current (sized key w) := hw.sameRing ⟨rfl, rfl, rfl, rfl, rfl, rfl⟩ rfl rfl rfl rfl rfl
    obtain ⟨kept, lo, hmovable, hnone⟩ := hsized.movable_added imported
    exact persist_current hmovable hnone hw.key fun w' hw' => ⟨rfl, hw'⟩

variable {version : Int}

theorem stays_update (hw : Current w) {compute : Policy → Except KeyFault KeyEntry}
    (hfound : ∀ entry, compute w.memory = .ok entry → version ∈ w.memory.keys) :
    Stays w (policy >>= fun p => resume (compute p) >>= fun entry =>
      setKey version entry >>= fun _ => persist) := by
  rw [Stays, finishes_bind, finishes_policy, finishes_bind, finishes_resume]
  cases hcompute : compute w.memory with
  | error e => exact ⟨rfl, hw⟩
  | ok entry =>
    have hmem := hfound entry hcompute
    simp only [outcomePost]
    rw [finishes_bind, finishes_setKey]
    obtain ⟨kept, hnew | haligned⟩ := hw.aligned
    · rw [hnew.keys] at hmem
      cases hmem
    obtain ⟨hlo, hhi⟩ := haligned.keys.mem_iff.mp hmem
    have hreplaced := aligned_replaced haligned hlo hhi entry
    exact persist_current hreplaced.movable
      (hreplaced.movable.persistError_eq hw.deleted hw.minimums) hw.key
      fun w' hw' => ⟨rfl, hw'⟩

theorem mem_of_safeGetKeyEntry (h : safeGetKeyEntry p version = .ok entry) : version ∈ p.keys := by
  rw [safeGetKeyEntry] at h
  split at h
  · cases h
  · rename_i hlookup
    exact AList.lookup_isSome.mp (by rw [hlookup]; rfl)

theorem mem_of_withPrivateKey (h : withPrivateKey formats p version key = .ok entry) :
    version ∈ p.keys := by
  obtain ⟨found, hfound, -⟩ := bind_eq_ok.mp h
  exact mem_of_safeGetKeyEntry hfound

theorem mem_of_withCertificateChain {certChain : List Certificate}
    (h : withCertificateChain formats p version certChain = .ok entry) :
    version ∈ p.keys := by
  obtain ⟨-, -, h⟩ := bind_eq_ok.mp h
  obtain ⟨found, hfound, -⟩ := bind_eq_ok.mp h
  exact mem_of_safeGetKeyEntry hfound

theorem stays_import (hw : Current w) {isPrivateKey : Bool} :
    Stays w (importPublicOrPrivate formats key isPrivateKey) := by
  refine stays_read hw reads_newEntry fun entry => ?_
  rw [Stays, finishes_bind, finishes_policy, finishes_bind, completeLatest]
  split
  · rw [finishes_bind, finishes_capture]
    refine (stays_update hw fun entry => mem_of_withPrivateKey).mono ?_ ?_
    · intro value s' hs'
      exact hs'
    rintro e ⟨w', n⟩ ⟨hn, hw'⟩
    subst hn
    cases e with
    | panic cause => exact ⟨rfl, hw'⟩
    | failed cause | refused text => exact stays_addImported hw'
  · exact stays_addImported hw

theorem stays_trim (hw : Current w) (raw : Except GoError (Option Int)) :
    Stays w (pathTrimUpdate raw) := by
  obtain ⟨kept, hring⟩ := hw.aligned
  refine finishes_trim hring (fun _ _ => ⟨rfl, hw⟩) fun version hmovable => ?_
  exact persist_current hmovable (hmovable.persistError_eq hw.deleted hw.minimums) hw.key
    fun w' hw' => ⟨⟨rfl, hw'⟩, rfl, hw'⟩

variable {req : ConfigRequest}

theorem stays_configure (hw : Current w) (hdate : UpToDate w (.operation (.configure req))) :
    Stays w (pathKeysConfigWrite req) := by
  have hback : ∀ {config : KeyConfig}, Current { w with
      memory := restoreConfig w.memory (withConfig w.memory config) } :=
    hw.sameRing ⟨rfl, rfl, rfl, rfl, rfl, rfl⟩ rfl rfl rfl rfl rfl
  have hshown : ∀ {w' : World}, Current w' → (((w', 0) : Trial).2 = 0 ∧ Current w') ∧
      ((w', 0) : Trial).2 = 0 ∧ Current w' := fun h => ⟨⟨rfl, h⟩, rfl, h⟩
  obtain ⟨kept, hring⟩ := hw.aligned
  refine finishes_configWrite hring (fun _ _ => ⟨rfl, hback⟩) (hshown hw)
    fun config _ hasked hmove => ?_
  have hrefused : ∀ cause, afterDefer (restoreConfig w.memory) (fun _ s => s.2 = 0 ∧ Current s.1)
      (.failed cause) ({ w with memory := withConfig w.memory config }, 0) :=
    fun _ => ⟨rfl, hback⟩
  rcases hmove with hlowered | hmovable
  · refine persist_lowered (fun cause _ => hrefused cause) hlowered (fun keys hnone haligned => ?_)
      nofun
    have hsome : ∃ archive, w.archive = some archive := by
      rcases hw.ring with ⟨hnew, -⟩ | ⟨archive, -, hsome, -⟩
      · exact absurd hnew.latest hlowered.latest_ne_zero
      · exact ⟨archive, hsome⟩
    obtain ⟨archive, hsome⟩ := hsome
    rw [hsome] at haligned
    refine hshown (current_of_persisted hnone hw.key ⟨rfl, rfl, rfl, rfl⟩ hsome
      { haligned with keys := haligned.keys.congr fun v hlo hhi => ?_ })
    -- the archive is up to date for the versions that come back
    obtain ⟨entry, hkept, hslot⟩ := haligned.window v
      ((max_le haligned.one_le haligned.available_le).trans hlo) hhi
    have hfresh := hdate (lt_of_eq_of_lt hasked.symm hlowered.below) v
      (le_of_eq_of_le hasked.symm hlo) hhi
    rw [archivedEntry, hsome] at hfresh
    exact hfresh.symm.trans (hslot.trans hkept.symm)
  · exact persist_of_checked (fun cause _ => hrefused cause) fun hnone =>
      persist_current hmovable hnone hw.key fun w' => hshown

def refilled (w : World) (hmacKey : GoString) : World :=
  let entry := { w.memory.entry w.memory.latestVersion with hmacKey := hmacKey }
  { w with
    memory := { w.memory with keys := w.memory.keys.insert w.memory.latestVersion entry },
    written := Function.update w.written w.memory.latestVersion (some entry) }

theorem finishes_fillHMACKey {n : Nat} {ok : Bool → Trial → Prop} {err : KeyFault → Trial → Prop}
    (hfilled : ∀ hmacKey, ok true (refilled w hmacKey, n)) (hsame : ok false (w, n))
    (herr : ∀ cause, err (.failed cause) (w, n)) :
    Finishes (faulty true) fillHMACKey (w, n) ok err := by
  rw [fillHMACKey, finishes_bind, finishes_policy]
  split
  · rw [finishes_bind, finishes_random rfl rfl]
    refine ⟨fun env => ?_, fun _ => herr⟩
    rw [finishes_bind, finishes_setKey]
    exact hfilled _
  · exact hsame

theorem upgradeVersions_sameRing (hlatest : 1 ≤ p.latestVersion)
    (hdec : 1 ≤ p.minDecryptionVersion) : SameRing p (upgradeVersions p) :=
  ⟨if_neg (by omega), rfl, rfl, rfl, rfl, if_neg (by omega)⟩

theorem stays_upgrade (hw : Current w) : Stays w upgrade := by
  rw [Stays, upgrade, finishes_bind, finishes_policy, finishes_restoring]
  have hkey : (!w.memory.key.isEmpty) = false := by
    rw [hw.key]
    rfl
  simp only [hkey, if_neg Bool.false_ne_true]
  rw [finishes_bind, finishes_policy, finishes_bind, finishes_setPolicy, finishes_bind]
  rcases hw.ring with ⟨hnew, hempty⟩ | ⟨archive, kept, hsome, haligned⟩
  · -- without a version nothing is persisted and everything is set back
    have hlatest : (upgradeVersions w.memory).latestVersion < 1 := by
      simp only [upgradeVersions, hnew.latest, hnew.keys]
      decide
    have hchanged : (upgradeVersions w.memory ≠ w.memory) := by
      intro heq
      have hdec := congrArg Policy.minDecryptionVersion heq
      simp only [upgradeVersions, hnew.minDecryption] at hdec
      cases hdec
    refine finishes_fillHMACKey (fun hmacKey => ?_) ?_ fun cause => ⟨rfl, hw⟩
    · rw [if_pos (by simp)]
      obtain ⟨cause, hrefused⟩ := persistError_of_latest
        (p := (refilled { w with memory := upgradeVersions w.memory } hmacKey).memory) hlatest
      rw [finishes_persist_refused hrefused]
      exact ⟨rfl, hw.deleted, hw.key, hw.minimums, .inl ⟨hnew, hempty⟩⟩
    rw [if_pos (by simp [hchanged])]
    obtain ⟨cause, hrefused⟩ := persistError_of_latest hlatest
    rw [finishes_persist_refused hrefused]
    exact ⟨rfl, hw⟩
  have hone := haligned.one_le
  have hle := haligned.le_latest
  have hring := upgradeVersions_sameRing (p := w.memory) (by omega) hone
  have hupgraded : Current { w with memory := upgradeVersions w.memory } :=
    hw.sameRing hring rfl rfl rfl rfl rfl
  have haligned' := aligned_sameRing haligned hring
  rw [show archive = w.archive.getD [] by rw [hsome, Option.getD_some]] at haligned'
  refine finishes_fillHMACKey (fun hmacKey => ?_) ?_ fun cause => ⟨rfl, hw⟩
  · rw [if_pos (by simp)]
    have hreplaced := aligned_replaced haligned' haligned'.le_latest le_rfl
      { (upgradeVersions w.memory).entry (upgradeVersions w.memory).latestVersion with
        hmacKey := hmacKey }
    exact persist_current hreplaced.movable
      (hreplaced.movable.persistError_eq hupgraded.deleted hupgraded.minimums) hw.key
      fun w' hw' => ⟨rfl, hw'⟩
  split
  · exact persist_current haligned'.movable
      (haligned'.movable.persistError_eq hupgraded.deleted hupgraded.minimums) hw.key
      fun w' hw' => ⟨rfl, hw'⟩
  · exact ⟨rfl, hupgraded⟩

theorem stays_answer (formats : KeyFormats) (hw : Current w) {c : KeyCall} (hdate : UpToDate w c) :
    Stays w (answer formats c) := by
  cases c with
  | upgrade => exact stays_upgrade hw
  | operation op =>
    cases op with
    | rotate => exact stays_rotate hw
    | importKey key isPrivateKey => exact stays_import hw
    | importPrivateKey version key =>
      exact stays_update hw fun entry => mem_of_withPrivateKey
    | certificateChain version certChain =>
      exact stays_update hw fun entry => mem_of_withCertificateChain
    | trim minAvailableVersion => exact finishes_bind.mpr (stays_trim hw minAvailableVersion)
    | configure req => exact finishes_bind.mpr (stays_configure hw hdate)

section runs

variable (formats : KeyFormats)

theorem runCall_current {w : World} (hw : Current w) {c : Called}
    (henv : ∀ n, (c.env n).storageError = none) (hdate : UpToDate w c.call) :
    Current (runCall formats w c).2 := by
  have hpost := ends_run henv (stays_answer formats hw hdate) 0
  cases hresult : (runCall formats w c).1 with
  | ok value | error e =>
    rw [runCall, runFrom] at hresult
    rw [hresult] at hpost
    exact hpost.2

theorem runCalls_current {w : World} (hw : Current w) {cs : List Called}
    (henv : ∀ c ∈ cs, ∀ n, (c.env n).storageError = none)
    (hdate : UpToDateRun formats w cs) : Current (runCalls formats w cs) := by
  induction cs generalizing w with
  | nil => exact hw
  | cons c cs ih =>
    have hstep := runCall_current formats hw (henv c (.head _)) hdate.1
    exact ih hstep (fun c' hc' => henv c' (.tail _ hc')) hdate.2

/-- In a run in which every request for a lower minimum decryption version finds the archive up to
date, a version among the keys has the last entry that a call wrote for it. -/
theorem updates_survive_archiving {w : World} (hw : Current w) {cs : List Called}
    (henv : ∀ c ∈ cs, ∀ n, (c.env n).storageError = none)
    (hdate : UpToDateRun formats w cs) {v : Int} {entry : KeyEntry}
    (hlookup : (runCalls formats w cs).memory.keys.lookup v = some entry) :
    (runCalls formats w cs).written v = some entry :=
  (runCalls_current formats hw henv hdate).written_eq hlookup

end runs

def pointFormats : KeyFormats :=
  { noFormats with
    marshalPKIXPublicKey := fun _ x y => .ok [UInt8.ofNat x.toNat, UInt8.ofNat y.toNat] }

def newKey : World where
  memory := { type := .ecdsaP256 }

theorem newKey_current : Current newKey :=
  ⟨rfl, rfl, by decide, .inl ⟨⟨rfl, rfl, rfl, rfl, rfl, rfl⟩, rfl⟩⟩

def rotation (x y : Int) : Called where
  call := .operation .rotate
  env := fun _ => { point := (x, y, 1) }

def configuration (minDecryptionVersion : Int) : Called where
  call := .operation (.configure { minDecryptionVersion := some minDecryptionVersion })

def certification : Called where
  call := .operation (.certificateChain 1 [{
    raw := [9], publicKeyAlgorithm := .ecdsa, publicKey := .ecdsaPublic .p256 1 2 }])

/-- Version 1 leaves the keys and comes back before it gets its certificate. -/
def certifiedLast : List Called :=
  [rotation 1 2, rotation 3 4, configuration 2, configuration 1, certification]

theorem certifiedLast_survives :
    ((runCalls pointFormats newKey certifiedLast).written 1).map KeyEntry.certificateChain =
      some [[9]] ∧
    (runCalls pointFormats newKey certifiedLast).written 1 =
      (runCalls pointFormats newKey certifiedLast).memory.keys.lookup 1 := by
  have henv : ∀ c ∈ certifiedLast, ∀ n, (c.env n).storageError = none := by
    intro c hc n
    simp only [certifiedLast, List.mem_cons, List.not_mem_nil, or_false] at hc
    rcases hc with rfl | rfl | rfl | rfl | rfl
    all_goals rfl
  have hlowered : UpToDate (runCalls pointFormats newKey (certifiedLast.take 3))
      (configuration 1).call := by
    intro _ v hlo hhi
    have hlo' : 1 ≤ v := hlo
    have hhi' : v ≤ 2 := hhi
    have hv : v = 1 ∨ v = 2 := by omega
    rcases hv with rfl | rfl
    all_goals decide +kernel
  have hdate : UpToDateRun pointFormats newKey certifiedLast :=
    ⟨trivial, trivial, fun hless => absurd hless (by decide +kernel), hlowered, trivial, trivial⟩
  cases hlookup : (runCalls pointFormats newKey certifiedLast).memory.keys.lookup 1 with
  | none => exact absurd hlookup (by decide +kernel)
  | some entry =>
    refine ⟨by decide +kernel, ?_⟩
    exact updates_survive_archiving pointFormats newKey_current henv hdate hlookup

/-- Version 1 gets its certificate, leaves the keys and comes back without it. -/
theorem certificate_lost :
    let w := runCalls pointFormats newKey
      [rotation 1 2, rotation 3 4, certification, configuration 2, configuration 1]
    (w.written 1).map KeyEntry.certificateChain = some [[9]] ∧
      (w.memory.keys.lookup 1).map KeyEntry.certificateChain = some [] := by
  decide +kernel

end VaultProofs.KeyUpdates
