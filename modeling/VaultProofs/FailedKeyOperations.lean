import VaultProofs.KeyArchive

/-!
Operations on a key of which one storage step fails. The rollback is spread
over `Persist`, the operation and the handler.
-/

namespace VaultProofs.FailedKeyOperations

open GoStrings EffectPrograms ProgramOutcomes GoSlices TransitKeys KeyOperations KeyPersistence
open KeyAlignment KeyRequests
open VaultEffects (GoError)
open KeyArchive (NewPolicy noFormats persist_movable persist_lowered
  finishes_configWrite)

inductive KeyOperation where
  | rotate
  | importKey (key : GoString) (isPrivateKey : Bool)
  | importPrivateKey (version : Int) (key : GoString)
  | certificateChain (version : Int) (certChain : List Certificate)
  | trim (minAvailableVersion : Except GoError (Option Int))
  | configure (req : ConfigRequest)

def operate (formats : KeyFormats) : KeyOperation → KeyM Unit
  | .rotate => rotate formats
  | .importKey key isPrivateKey => importPublicOrPrivate formats key isPrivateKey
  | .importPrivateKey version key => importPrivateKeyForVersion formats version key
  | .certificateChain version certChain =>
    validateAndPersistCertificateChain formats version certChain
  | .trim minAvailableVersion => do
      let _ ← pathTrimUpdate minAvailableVersion
      pure ()
  | .configure req => do
      let _ ← pathKeysConfigWrite req
      pure ()

structure Unchanged (p q : Policy) : Prop where
  latest : q.latestVersion = p.latestVersion
  keys : ∀ v, q.keys.lookup v = p.keys.lookup v
  archive : q.archiveVersion = p.archiveVersion
  archiveMin : q.archiveMinVersion = p.archiveMinVersion
  available : q.minAvailableVersion = p.minAvailableVersion
  minDecryption : q.minDecryptionVersion = p.minDecryptionVersion
  minEncryption : q.minEncryptionVersion = p.minEncryptionVersion
  autoRotate : q.autoRotatePeriod = p.autoRotatePeriod

/-- The stored policy gives every version its own entry, and so does the stored archive. -/
def StoredSound (own kept : Entries) (w : World) : Prop :=
  ∀ q, w.stored = some q → ∃ archive, w.archive = some archive ∧
    KeysFrom q.keys q.minDecryptionVersion q.latestVersion own ∧
    Window archive q.minAvailableVersion (max 1 q.minAvailableVersion) q.latestVersion kept

/-- A stored policy in good order: in memory and in storage every version has its entry. -/
structure Sound (own kept : Entries) (w : World) (q : Policy) (archive : List KeyEntry) :
    Prop where
  stored : w.stored = some q
  archive_eq : w.archive = some archive
  storedKeys : KeysFrom q.keys q.minDecryptionVersion q.latestVersion own
  latest : q.latestVersion = w.memory.latestVersion
  available : q.minAvailableVersion = w.memory.minAvailableVersion
  aligned : Aligned w.memory archive own kept
  minimums : ¬ (0 < w.memory.minEncryptionVersion ∧
    w.memory.minEncryptionVersion < w.memory.minDecryptionVersion)

/-- A policy in good order, or one that has no version yet. -/
inductive InOrder (own kept : Entries) (w : World) : Prop where
  | new (hnew : NewPolicy w.memory) (hstored : w.stored = none) (harchive : w.archive = none)
  | sound (q : Policy) (archive : List KeyEntry) (hsound : Sound own kept w q archive)

def Intact (own kept : Entries) (w : World) (e : KeyFault) (s : Trial) : Prop :=
  Answered e → Unchanged w.memory s.1.memory ∧ StoredSound own kept s.1

/-- With at most one failing storage step the key ring is intact if an error comes back. -/
def Unharmed (formats : KeyFormats) (own kept : Entries) (w : World) (op : KeyOperation) : Prop :=
  Finishes (faulty false) (operate formats op) (w, 1) (fun _ _ => True) (Intact own kept w)

variable {b : Bool} {w : World} {own kept : Entries} {lo : Int} {n : Nat} {ok : Unit → Trial → Prop}
  {err : KeyFault → Trial → Prop}

/-- What a failed `Persist` leaves of a policy that was not trimmed. -/
structure AfterFault (kept : Entries) (w w' : World) : Prop where
  memory : w'.memory = w.memory
  stored : w'.stored = w.stored
  written : w'.written = w.written
  archive : w'.archive = w.archive ∨ ∃ archive, w'.archive = some archive ∧
    Window archive w.memory.minAvailableVersion (max 1 w.memory.minAvailableVersion)
      w.memory.latestVersion kept

theorem afterFault_refl : AfterFault kept w w :=
  ⟨rfl, rfl, rfl, .inl rfl⟩

theorem persist_movable_faults (h : Movable w.memory (w.archive.getD []) own kept lo)
    (hmin : w.memory.archiveMinVersion = w.memory.minAvailableVersion)
    (hok : ∀ s, ok () s)
    (hrefused : ∀ e, persistError w.memory = some e → Answered e → err e (w, n))
    (herr : ∀ e w' m, Answered e → AfterFault kept w w' → n = m + 1 → err e (w', m)) :
    Finishes (faulty b) persist (w, n) ok err := by
  refine persist_movable (fun cause hcheck => hrefused _ hcheck answered_failed) h
    (fun _ _ _ => hok _) fun archive' cause m hm haligned => ?_
  have hhalf : halfTrimmed w = w := by
    rw [halfTrimmed, h.trimmed_eq, ← hmin]
  have hsame := herr (.failed cause) w m answered_failed afterFault_refl hm
  rw [hhalf]
  exact ⟨hsame, hsame,
    herr _ _ m answered_failed ⟨rfl, rfl, rfl, .inr ⟨archive', rfl, haligned.window⟩⟩ hm⟩

theorem persist_movable_back (h : Movable w.memory (w.archive.getD []) own kept lo)
    (hmin : w.memory.archiveMinVersion = w.memory.minAvailableVersion) (hok : ∀ s, ok () s)
    (hback : ∀ e w' m, Answered e → AfterFault kept w w' → err e (w', m)) :
    Finishes (faulty b) persist (w, n) ok err :=
  persist_movable_faults h hmin hok (fun e _ he => hback e w n he afterFault_refl)
    fun e w' m he hfault _ => hback e w' m he hfault

theorem persist_can_fail (h : Finishes (faulty b) persist (w, 1) ok err) :
    ∃ e m, Answered e ∧ err e (w, m) := by
  cases hcheck : persistError w.memory with
  | some e =>
    obtain ⟨cause, rfl⟩ := persistError_failed hcheck
    exact ⟨_, 1, answered_failed, (finishes_persist_refused hcheck).mp h⟩
  | none => exact ⟨_, 0, answered_failed, ((finishes_persist hcheck).mp h).2 0 .internal rfl⟩

variable {kept' : Entries} {w' : World} {q : Policy} {archive : List KeyEntry}

theorem unchanged_refl {p : Policy} : Unchanged p p :=
  ⟨rfl, fun _ => rfl, rfl, rfl, rfl, rfl, rfl, rfl⟩

theorem Sound.getD (h : Sound own kept w q archive) : w.archive.getD [] = archive := by
  rw [h.archive_eq]
  rfl

section

variable (h : InOrder own kept w)

include h

theorem InOrder.storedSound (hstored : w'.stored = w.stored) {hi : Int}
    (harchive : w'.archive = w.archive ∨ ∃ archive, w'.archive = some archive ∧
      Window archive w.memory.minAvailableVersion (max 1 w.memory.minAvailableVersion) hi kept')
    (hhi : w.memory.latestVersion ≤ hi)
    (hkept : ∀ v, v ≤ w.memory.latestVersion → kept v = kept' v) : StoredSound own kept w' := by
  intro q' hq'
  rw [hstored] at hq'
  cases h with
  | new hnew hnone =>
    rw [hnone] at hq'
    cases hq'
  | sound q archive hsound =>
    rw [hsound.stored] at hq'
    cases hq'
    rcases harchive with hsame | ⟨archive', hsome, hwindow⟩
    · refine ⟨archive, hsame.trans hsound.archive_eq, hsound.storedKeys, ?_⟩
      rw [hsound.available, hsound.latest]
      exact hsound.aligned.window
    · refine ⟨archive', hsome, hsound.storedKeys, ?_⟩
      rw [hsound.available, hsound.latest]
      exact (hwindow.mono le_rfl hhi).congr fun v _ => hkept v

theorem InOrder.intact {n : Nat} {e : KeyFault} : Intact own kept w e (w, n) :=
  fun _ => ⟨unchanged_refl, h.storedSound rfl (.inl rfl) le_rfl fun _ _ => rfl⟩

theorem InOrder.archiveMin_eq : w.memory.archiveMinVersion = w.memory.minAvailableVersion := by
  cases h with
  | new hnew => exact hnew.archiveMin.trans hnew.available.symm
  | sound q archive hsound => exact hsound.aligned.archiveMin_eq

theorem InOrder.ring : NewPolicy w.memory ∨ Aligned w.memory (w.archive.getD []) own kept := by
  cases h with
  | new hnew => exact .inl hnew
  | sound q archive hsound =>
    rw [hsound.getD]
    exact .inr hsound.aligned

theorem InOrder.grown (entry : KeyEntry) :
    ∃ own' lo, Movable (grown w.memory entry) (w.archive.getD []) own'
      (Function.update kept (w.memory.latestVersion + 1) (some entry)) lo := by
  cases h with
  | new hnew hstored harchive =>
    rw [harchive]
    exact ⟨_, 1, movable_first hnew.latest hnew.keys hnew.archive hnew.archiveMin hnew.available
      hnew.minDecryption entry kept⟩
  | sound q archive hsound =>
    rw [hsound.getD]
    exact ⟨_, _, movable_grown hsound.aligned entry⟩

end

variable {formats : KeyFormats}

theorem unharmed_rotate (h : InOrder own kept w) : Unharmed formats own kept w .rotate := by
  rw [Unharmed, operate, rotate, finishes_bind, finishes_policy]
  split
  · exact h.intact
  rw [finishes_restoring, finishes_bind]
  refine finishes_rotateInMemory (fun entry => ?_) fun cause => h.intact
  rw [finishes_bind, finishes_policy, finishes_bind, finishes_setPolicy]
  obtain ⟨own', lo, hmovable⟩ := h.grown entry
  refine persist_movable_back (movable_sameRing hmovable) h.archiveMin_eq (fun _ => trivial) ?_
  intro e w' m he hfault
  rw [afterDefer_answered he]
  intro _
  constructor
  · rw [hfault.memory]
    exact ⟨rfl, fun _ => rfl, rfl, rfl, rfl, rfl, rfl, rfl⟩
  · refine h.storedSound hfault.stored hfault.archive (by simp [added, grown]) fun v hv => ?_
    exact (Function.update_of_ne (by omega) _ _).symm

variable {p : Policy} {version : Int}

theorem mem_of_lookup (h : Aligned p archive own kept) {entry : KeyEntry}
    (hlookup : p.keys.lookup version = some entry) :
    p.minDecryptionVersion ≤ version ∧ version ≤ p.latestVersion ∧ own version = some entry := by
  have hmem : version ∈ p.keys := AList.lookup_isSome.mp (by rw [hlookup]; rfl)
  obtain ⟨hlo, hhi⟩ := h.keys.mem_iff.mp hmem
  obtain ⟨entry', hown, hlookup'⟩ := h.keys.inside version hlo hhi
  cases hlookup.symm.trans hlookup'
  exact ⟨hlo, hhi, hown⟩

theorem unchanged_insert {entry : KeyEntry} (hlookup : p.keys.lookup version = some entry) :
    Unchanged p { p with keys := p.keys.insert version entry } := by
  refine ⟨rfl, fun v => ?_, rfl, rfl, rfl, rfl, rfl, rfl⟩
  by_cases hv : v = version
  · rw [hv, hlookup]
    exact AList.lookup_insert _
  · exact AList.lookup_insert_ne hv

/-- An operation that gives a version a new entry and persists the policy. Nothing sets
the entry back. -/
theorem unharmed_update (h : InOrder own kept w) {compute : Policy → Except KeyFault KeyEntry} :
    Finishes (faulty false)
        (policy >>= fun p => resume (compute p) >>= fun entry =>
          setKey version entry >>= fun _ => persist) (w, 1) (fun _ _ => True)
        (Intact own kept w) ↔
      ∀ entry, compute w.memory = .ok entry → w.memory.keys.lookup version = some entry := by
  rw [finishes_bind, finishes_policy, finishes_bind, finishes_resume]
  cases hcompute : compute w.memory with
  | error e => exact ⟨fun _ _ heq => (nomatch heq), fun _ => h.intact⟩
  | ok entry =>
    simp only [outcomePost]
    rw [finishes_bind, finishes_setKey]
    constructor
    · intro hfinishes entry' heq
      cases heq
      obtain ⟨e, m, he, hpost⟩ := persist_can_fail hfinishes
      rw [← (hpost he).1.keys version]
      exact AList.lookup_insert _
    intro hsame
    have hlookup := hsame entry rfl
    cases h with
    | new hnew =>
      rw [hnew.keys] at hlookup
      cases hlookup
    | sound q archive hsound =>
      obtain ⟨hlo, hhi, hown⟩ := mem_of_lookup hsound.aligned hlookup
      have haligned := aligned_replaced hsound.aligned hlo hhi entry
      rw [← hsound.getD] at haligned
      refine persist_movable_back haligned.movable hsound.aligned.archiveMin_eq
        (fun _ => trivial) fun e w' m _ hfault _ => ?_
      constructor
      · rw [hfault.memory]
        exact unchanged_insert hlookup
      · exact (InOrder.sound q archive hsound).storedSound hfault.stored hfault.archive
          le_rfl fun _ _ => rfl

/-- The trim that a policy in good order accepts and that takes versions away. -/
def Trims (p : Policy) (version : Int) : Prop :=
  p.minAvailableVersion < version ∧ version ≤ p.minEncryptionVersion ∧
    version ≤ p.minDecryptionVersion ∧ p.deleted = false

theorem checkTrim_of_trims (h : InOrder own kept w) (htrims : Trims w.memory version) :
    checkTrim w.memory version = .ok () := by
  obtain ⟨hless, henc, hdec, -⟩ := htrims
  cases h with
  | new hnew =>
    have havail := hnew.available
    have hmin := hnew.minDecryption
    omega
  | sound q archive hsound =>
    have hnonneg := hsound.aligned.available_nonneg
    rw [checkTrim, if_neg (by omega), if_neg (by omega), if_neg (by omega), if_neg (by omega),
      if_neg (by omega), if_neg (by omega), if_neg (by omega)]

theorem unharmed_trimmed (h : Sound own kept w q archive)
    (hle : w.memory.minAvailableVersion ≤ version) (henc : version ≤ w.memory.minEncryptionVersion)
    (hdec : version ≤ w.memory.minDecryptionVersion) {ok : Unit → Trial → Prop}
    (hok : ∀ s, ok () s) :
    Finishes (faulty false) persist
        ({ w with memory := { w.memory with minAvailableVersion := version } }, 1) ok
        (afterDefer (fun p => { p with minAvailableVersion := w.memory.minAvailableVersion })
          (Intact own kept w)) ↔ ¬ Trims w.memory version := by
  have horder : InOrder own kept w := .sound q archive h
  have hmovable := movable_trimmed h.aligned hle hdec
  rw [← h.getD] at hmovable
  constructor
  · rintro hfinishes ⟨hless, -, -, hdeleted⟩
    have hnone := hmovable.persistError_eq hdeleted h.minimums
    obtain ⟨archive', hmoved, -⟩ := hmovable.archived_eq
    have hfail := ((finishes_persist_toArchive hnone hmovable.containsMinimum
      hmoved).mp hfinishes).2 0 .internal rfl
    -- the archive write fails: its new beginning stays in memory
    have hmin := (hfail.2.1 answered_failed).1.archiveMin
    have hkept := h.aligned.archiveMin_eq
    have hnew := hmovable.trimmed_eq
    simp only [halfTrimmed] at hmin hnew
    omega
  · intro htrims
    by_cases hdeleted : w.memory.deleted = true
    · have hrefused : persistError { w.memory with minAvailableVersion := version } =
          some (fault "key has been deleted, not persisting") := if_pos hdeleted
      rw [finishes_persist_refused hrefused]
      exact (afterDefer_answered answered_failed).mpr horder.intact
    have hsame : version = w.memory.minAvailableVersion := by
      by_contra hne
      exact htrims ⟨by omega, henc, hdec, by simpa using hdeleted⟩
    subst hsame
    refine persist_movable_back hmovable h.aligned.archiveMin_eq hok fun e w' m he hfault => ?_
    rw [afterDefer_answered he]
    intro _
    constructor
    · rw [hfault.memory]
      exact unchanged_refl
    · exact horder.storedSound hfault.stored hfault.archive le_rfl fun _ _ => rfl

theorem unharmed_trim (h : InOrder own kept w) (raw : Except GoError (Option Int)) :
    Unharmed formats own kept w (.trim raw) ↔
      ∀ version, raw = .ok (some version) → ¬ Trims w.memory version := by
  rw [Unharmed, operate, finishes_bind, pathTrimUpdate, finishes_bind, finishes_policy]
  cases raw with
  | error e => exact iff_of_true h.intact (by simp)
  | ok requested =>
    cases requested with
    | none => exact iff_of_true h.intact (by simp)
    | some version =>
      simp only [Except.ok.injEq, Option.some.injEq, forall_eq']
      rw [finishes_bind, finishes_resume]
      cases hcheck : checkTrim w.memory version with
      | error e =>
        refine ⟨fun _ htrims => ?_, fun _ => h.intact⟩
        rw [checkTrim_of_trims h htrims] at hcheck
        cases hcheck
      | ok done =>
        obtain ⟨hle, henc, hdec, hne⟩ := checkTrim_ok hcheck
        simp only [outcomePost]
        rw [finishes_bind, finishes_setPolicy, finishes_bind, finishes_restoring]
        cases h with
        | new hnew => exact absurd hnew.minDecryption hne
        | sound q archive hsound =>
          refine unharmed_trimmed hsound hle henc hdec fun s => ?_
          rw [finishes_bind, finishes_policy]
          exact finishes_format (fun _ => trivial) fun hpanic => absurd rfl (hpanic _)

def requestedDecryption (req : ConfigRequest) (p : Policy) : Int :=
  (req.minDecryptionVersion.map forcedMinimum).getD p.minDecryptionVersion

def requestedEncryption (req : ConfigRequest) (p : Policy) : Int :=
  req.minEncryptionVersion.getD p.minEncryptionVersion

def AdmissibleDecryption (req : ConfigRequest) (p : Policy) : Prop :=
  ∀ v, req.minDecryptionVersion = some v → 0 ≤ v ∧
    (forcedMinimum v = p.minDecryptionVersion ∨ forcedMinimum v ≤ p.latestVersion)

def AdmissibleEncryption (req : ConfigRequest) (p : Policy) : Prop :=
  ∀ v, req.minEncryptionVersion = some v → 0 ≤ v ∧
    (v = p.minEncryptionVersion ∨ v ≤ p.latestVersion)

structure SetsPeriod (req : ConfigRequest) (p : Policy) : Prop where
  decryption : AdmissibleDecryption req p
  encryption : AdmissibleEncryption req p
  order : ¬ (0 < requestedEncryption req p ∧ requestedEncryption req p < requestedDecryption req p)
  period : ∃ seconds : Int, req.autoRotatePeriod = .ok (some seconds) ∧
    (seconds = 0 ∨ 3600 ≤ seconds) ∧ 1000000000 * seconds ≠ p.autoRotatePeriod

variable {req : ConfigRequest}

theorem configMinDecryption_cases (req : ConfigRequest) (p : Policy) :
    (AdmissibleDecryption req p ∧
      ∃ c, configMinDecryption req.minDecryptionVersion p.latestVersion (configOf p) =
        .ok ({ configOf p with minDecryptionVersion := requestedDecryption req p }, c)) ∨
      ¬ AdmissibleDecryption req p ∧
        ∃ e, configMinDecryption req.minDecryptionVersion p.latestVersion (configOf p) =
          .error e := by
  have hcurrent : (configOf p).minDecryptionVersion = p.minDecryptionVersion := rfl
  rw [AdmissibleDecryption, requestedDecryption]
  cases hrequested : req.minDecryptionVersion with
  | none => exact .inl ⟨fun v hv => (nomatch hv), false, rfl⟩
  | some v =>
    simp only [configMinDecryption, hcurrent, Option.some.injEq, forall_eq']
    split
    · exact .inr ⟨by omega, _, rfl⟩
    split
    · rename_i hsame
      refine .inl ⟨by omega, false, ?_⟩
      rw [Option.map_some, Option.getD_some, hsame]
      rfl
    · split
      · exact .inr ⟨by omega, _, rfl⟩
      · exact .inl ⟨by omega, true, rfl⟩

theorem configMinEncryption_cases (req : ConfigRequest) (p : Policy) (d : Int) :
    (AdmissibleEncryption req p ∧
      ∃ c, configMinEncryption req.minEncryptionVersion p.latestVersion
        { configOf p with minDecryptionVersion := d } =
        .ok ({ configOf p with
          minDecryptionVersion := d, minEncryptionVersion := requestedEncryption req p }, c)) ∨
      ¬ AdmissibleEncryption req p ∧
        ∃ e, configMinEncryption req.minEncryptionVersion p.latestVersion
          { configOf p with minDecryptionVersion := d } = .error e := by
  have hcurrent : (configOf p).minEncryptionVersion = p.minEncryptionVersion := rfl
  rw [AdmissibleEncryption, requestedEncryption]
  cases hrequested : req.minEncryptionVersion with
  | none => exact .inl ⟨fun v hv => (nomatch hv), false, rfl⟩
  | some v =>
    simp only [configMinEncryption, hcurrent, Option.some.injEq, forall_eq']
    split
    · exact .inr ⟨by omega, _, rfl⟩
    split
    · rename_i hsame
      refine .inl ⟨by omega, false, ?_⟩
      rw [Option.getD_some, hsame]
    · split
      · exact .inr ⟨by omega, _, rfl⟩
      · exact .inl ⟨by omega, true, rfl⟩

theorem configAutoRotate_period {requested : Option Int} {kt : KeyType} {config config' : KeyConfig}
    {result : Except KeyFault Bool} (h : configAutoRotate requested kt config = (config', result)) :
    config'.autoRotatePeriod = config.autoRotatePeriod ↔
      ¬ ∃ seconds : Int, requested = some seconds ∧ (seconds = 0 ∨ 3600 ≤ seconds) ∧
        1000000000 * seconds ≠ config.autoRotatePeriod := by
  cases requested with
  | none =>
    cases h
    exact iff_of_true rfl (by simp)
  | some seconds =>
    simp only [configAutoRotate] at h
    simp only [Option.some.injEq, exists_eq_left']
    by_cases hrefused : 1000000000 * seconds ≠ 0 ∧ 1000000000 * seconds < 3600 * 1000000000
    · rw [if_pos hrefused] at h
      cases h
      exact ⟨fun _ hseconds => by omega, fun _ => rfl⟩
    · rw [if_neg hrefused] at h
      cases h
      exact ⟨fun h hsets => hsets.2 h, fun h => not_not.mp fun hne => h ⟨by omega, hne⟩⟩

theorem configure_period (req : ConfigRequest) (p : Policy) :
    (configure req p).1.autoRotatePeriod = p.autoRotatePeriod ↔ ¬ SetsPeriod req p := by
  rcases configMinDecryption_cases req p with
    ⟨hdec, decryption, hdecryption⟩ | ⟨hnot, e, he⟩
  · rcases configMinEncryption_cases req p (requestedDecryption req p) with
      ⟨henc, encryption, hencryption⟩ | ⟨hnot, e, he⟩
    · simp only [configure, hdecryption, hencryption, checkMinimums]
      by_cases horder : 0 < requestedEncryption req p ∧
          requestedEncryption req p < requestedDecryption req p
      · rw [if_pos horder]
        exact ⟨fun _ hsets => hsets.order horder, fun _ => rfl⟩
      rw [if_neg horder]
      have hsets : SetsPeriod req p ↔ ∃ seconds : Int, req.autoRotatePeriod = .ok (some seconds) ∧
          (seconds = 0 ∨ 3600 ≤ seconds) ∧ 1000000000 * seconds ≠ p.autoRotatePeriod :=
        ⟨fun h => h.period, fun h => ⟨hdec, henc, horder, h⟩⟩
      rw [hsets]
      cases hperiod : req.autoRotatePeriod with
      | error e =>
        exact iff_of_true rfl (by simp)
      | ok requested =>
        simp only [Except.ok.injEq]
        split
        · rename_i hrotate
          exact configAutoRotate_period hrotate
        rename_i hrotate
        split
        · exact configAutoRotate_period hrotate
        · exact configAutoRotate_period hrotate
    · simp only [configure, hdecryption, he]
      exact ⟨fun _ hsets => hnot hsets.encryption, fun _ => rfl⟩
  · simp only [configure, he]
    exact ⟨fun _ hsets => hnot hsets.decryption, fun _ => rfl⟩

theorem restoreConfig_unchanged {config : KeyConfig} :
    Unchanged p (restoreConfig p (withConfig p config)) ↔
      config.autoRotatePeriod = p.autoRotatePeriod :=
  ⟨fun h => h.autoRotate, fun h => ⟨rfl, fun _ => rfl, rfl, rfl, rfl, rfl, rfl, h⟩⟩

theorem unharmed_configure (h : InOrder own kept w) (req : ConfigRequest) :
    Unharmed formats own kept w (.configure req) ↔ ¬ SetsPeriod req w.memory := by
  rw [← configure_period, Unharmed, operate, finishes_bind]
  constructor
  · -- a refusal or a failing write shows what is not set back
    rw [pathKeysConfigWrite, finishes_bind, finishes_policy, finishes_restoring, finishes_bind,
      finishes_setPolicy, finishes_bind, finishes_resume]
    have hback : ∀ {e : KeyFault} {m : Nat} {config : KeyConfig}, Answered e →
        afterDefer (restoreConfig w.memory) (Intact own kept w) e
          ({ w with memory := withConfig w.memory config }, m) →
        config.autoRotatePeriod = w.memory.autoRotatePeriod := fun he hpost =>
      restoreConfig_unchanged.mp (((afterDefer_answered he).mp hpost) he).1
    cases hconfigure : configure req w.memory with
    | mk config outcome =>
      cases outcome with
      | error e => exact hback (configure_answered hconfigure)
      | ok needed =>
        cases needed with
        | false =>
          obtain ⟨_, -, -, -, hsame, -⟩ := configure_spec hconfigure
          intro _
          rw [(hsame rfl).2]
          rfl
        | true =>
          rw [outcomePost, if_pos rfl, finishes_bind]
          intro hfinishes
          obtain ⟨e, m, he, hpost⟩ := persist_can_fail hfinishes
          exact hback he hpost
  · intro hperiod
    have hback : ∀ e w' m, Answered e →
        AfterFault kept { w with memory := withConfig w.memory (configure req w.memory).1 } w' →
        Intact own kept w e ({ w' with memory := restoreConfig w.memory w'.memory }, m) := by
      intro e w' m he hfault _
      constructor
      · rw [hfault.memory]
        exact restoreConfig_unchanged.mpr hperiod
      · exact h.storedSound hfault.stored hfault.archive le_rfl fun _ _ => rfl
    refine finishes_configWrite h.ring (fun e he => hback e _ 1 he afterFault_refl)
      ⟨trivial, h.intact⟩ ?_
    rintro _ rfl - hmove
    have hshown : ∀ s : Trial, True ∧ Intact own kept w (.panic .nilDereference) s :=
      fun s => ⟨trivial, fun hpanic => absurd rfl (hpanic _)⟩
    rcases hmove with hlowered | hmovable
    · exact persist_lowered (fun cause _ => hback _ _ 1 answered_failed afterFault_refl) hlowered
        (fun _ _ _ => hshown _) fun cause m _ => hback _ _ m answered_failed afterFault_refl
    · exact persist_movable_back hmovable h.archiveMin_eq hshown
        fun e w' m he hfault => (afterDefer_answered he).mpr (hback e w' m he hfault)

def Importable (formats : KeyFormats) (p : Policy) (key : GoString) (isPrivateKey : Bool) : Prop :=
  (importedEntry formats p key isPrivateKey {}).isOk = true

/-- What an import must not do to be harmless: it may complete the latest version, but a
new version stays in memory when it is not stored. -/
def KeepsVersions (formats : KeyFormats) (p : Policy) (key : GoString) (isPrivateKey : Bool) : Prop :=
  if 0 < p.latestVersion ∧ (p.entry p.latestVersion).isPrivateKeyMissing ∧ isPrivateKey then
    match withPrivateKey formats p p.latestVersion key with
    | .ok _ => p.deleted = false
    | .error (.panic _) => True
    | .error _ => ¬ Importable formats p key isPrivateKey
  else ¬ Importable formats p key isPrivateKey

variable {key : GoString} {isPrivateKey : Bool}

theorem parseFromKey_isOk (kt : KeyType) (parsedKey : ParsedKey) (entry entry' : KeyEntry) :
    (parseFromKey formats kt parsedKey entry).isOk =
      (parseFromKey formats kt parsedKey entry').isOk := by
  have hecdsa : ∀ curve x y d, (parseECDSA formats kt parsedKey curve x y d entry).isOk =
      (parseECDSA formats kt parsedKey curve x y d entry').isOk := by
    intro curve x y d
    simp only [parseECDSA]
    repeat' split
    all_goals rfl
  have hrsa : ∀ publicKey rsaKey, (parseRSA kt parsedKey publicKey rsaKey entry).isOk =
      (parseRSA kt parsedKey publicKey rsaKey entry').isOk := by
    intro publicKey rsaKey
    simp only [parseRSA]
    repeat' split
    all_goals rfl
  have hed25519 : ∀ publicKey k, (parseEd25519 formats kt parsedKey publicKey k entry).isOk =
      (parseEd25519 formats kt parsedKey publicKey k entry').isOk := by
    intro publicKey k
    simp only [parseEd25519]
    split
    all_goals rfl
  cases parsedKey with
  | ecdsaPrivate curve x y d => exact hecdsa curve x y (some d)
  | ecdsaPublic curve x y => exact hecdsa curve x y none
  | ed25519Private k => exact hed25519 (k.drop 32) (some k)
  | ed25519Public k => exact hed25519 k none
  | rsaPrivate k => exact hrsa k.publicKey (some k)
  | rsaPublic k => exact hrsa k none
  | other text => rfl

variable {entry : KeyEntry}

theorem asymmetric_of_parseFromKey {kt : KeyType} {parsedKey : ParsedKey}
    (h : (parseFromKey formats kt parsedKey entry).isOk = true) :
    kt.symmetric = false ∧ ∀ size, keySizeFits kt size = true := by
  have hkind : kt.isECDSA = true ∨ kt.isRSA = true ∨ kt = .ed25519 := by
    by_contra hno
    simp only [not_or, Bool.not_eq_true] at hno
    cases parsedKey <;>
      simp [parseFromKey, parseECDSA, parseRSA, parseEd25519, hno, Except.isOk, Except.toBool] at h
  cases kt <;> simp_all [KeyType.isECDSA, KeyType.isRSA, KeyType.symmetric, keySizeFits]

theorem importedEntry_isOk (entry : KeyEntry) :
    (importedEntry formats p key isPrivateKey entry).isOk = true ↔
      Importable formats p key isPrivateKey := by
  rw [Importable]
  simp only [importedEntry]
  split
  · rfl
  split
  · rfl
  split
  · exact Iff.rfl
  · split
    · rfl
    · rw [parseFromKey_isOk _ _ entry {}]

theorem importable_of_withPrivateKey {version : Int}
    (h : withPrivateKey formats p version key = .ok entry) : Importable formats p key true := by
  obtain ⟨found, -, h⟩ := bind_eq_ok.mp h
  obtain ⟨parsedKey, hparse, h⟩ := bind_eq_ok.mp h
  obtain ⟨-, -, h⟩ := bind_eq_ok.mp h
  have hok : (parseFromKey formats p.type parsedKey {}).isOk = true := by
    rw [parseFromKey_isOk p.type parsedKey {} found, h]
    rfl
  obtain ⟨hsymmetric, hsize⟩ := asymmetric_of_parseFromKey hok
  rw [Importable]
  simp only [importedEntry, hsize, hsymmetric, parseImported, hparse]
  simpa using hok

def addImported (formats : KeyFormats) (p : Policy) (key : GoString) (isPrivateKey : Bool)
    (entry : KeyEntry) : KeyM Unit := do
  let entry ← withHMACKey (p.type ≠ .hmac) entry
  let entry ← resume (importedEntry formats p key isPrivateKey entry)
  let p ← policy
  setPolicy { p with keySize := if p.type = .hmac then key.length else p.keySize }
  addVersion entry
  persist

def sized (key : GoString) (w : World) : World :=
  { w with memory := { w.memory with
      keySize := if w.memory.type = .hmac then key.length else w.memory.keySize } }

variable {needed : Bool} {s : Trial} {ok : KeyEntry → Trial → Prop} {done : Unit → Trial → Prop}

section

variable {C : Prop} (h : ∀ entry, ok entry s ↔ C)

include h

-- the random bytes do not matter to `C`
theorem finishes_newEntry : Finishes (faulty false) newEntry s ok err ↔ C := by
  rw [newEntry, finishes_bind, finishes_plain rfl]
  exact ⟨fun hok => (h _).mp (hok {}), fun hC _ => (h _).mpr hC⟩

theorem finishes_withHMACKey : Finishes (faulty false) (withHMACKey needed entry) s ok err ↔ C := by
  rw [withHMACKey]
  split
  · rw [finishes_bind, finishes_random rfl rfl]
    exact ⟨fun hok => (h _).mp (hok.1 {}), fun hC => ⟨fun _ => (h _).mpr hC, by simp⟩⟩
  · exact h entry

end

theorem finishes_addImported_refused (h : ¬ Importable formats p key isPrivateKey)
    (herr : ∀ e, err e s) :
    Finishes (faulty false) (addImported formats p key isPrivateKey entry) s done err := by
  rw [addImported, finishes_bind]
  refine (finishes_withHMACKey fun entry => iff_true_intro ?_).mpr trivial
  cases himported : importedEntry formats p key isPrivateKey entry with
  | error e => exact herr e
  | ok imported => exact absurd ((importedEntry_isOk entry).mp (by rw [himported]; rfl)) h

theorem importedEntry_ok (h : Importable formats p key isPrivateKey) (entry : KeyEntry) :
    ∃ imported, importedEntry formats p key isPrivateKey entry = .ok imported := by
  have hok := (importedEntry_isOk entry).mpr h
  cases himported : importedEntry formats p key isPrivateKey entry with
  | error e =>
    rw [himported] at hok
    cases hok
  | ok imported => exact ⟨imported, rfl⟩

theorem finishes_addImported {C : Prop} (h : Importable formats p key isPrivateKey)
    (hpersist : ∀ entry,
      Finishes (faulty false) persist (added (sized key s.1) entry, s.2) done err ↔ C) :
    Finishes (faulty false) (addImported formats p key isPrivateKey entry) s done err ↔ C := by
  rw [addImported, finishes_bind]
  refine finishes_withHMACKey fun entry => ?_
  obtain ⟨imported, himported⟩ := importedEntry_ok h entry
  rw [finishes_bind, finishes_resume, himported]
  simp only [outcomePost, finishes_bind, finishes_policy, finishes_setPolicy, finishes_addVersion]
  exact hpersist imported

/-- An imported version does not go away when the policy is not stored. -/
theorem importable_harms {w' : World} {done : Unit → Trial → Prop}
    (himportable : Importable formats p key isPrivateKey)
    (hlatest : w'.memory.latestVersion = w.memory.latestVersion) :
    ¬ Finishes (faulty false) (addImported formats p key isPrivateKey entry) (w', 1) done
      (Intact own kept w) := by
  refine (finishes_addImported himportable fun entry => iff_false_intro fun hpersist => ?_).mp
  obtain ⟨e, m, he, hintact⟩ := persist_can_fail hpersist
  have hsame := (hintact he).1.latest
  simp only [added, grown, sized] at hsame
  omega

theorem unharmed_addImported (h : InOrder own kept w) :
    Finishes (faulty false) (addImported formats p key isPrivateKey entry) (w, 1)
      (fun _ _ => True) (Intact own kept w) ↔ ¬ Importable formats p key isPrivateKey :=
  ⟨fun hfinishes himportable => importable_harms himportable rfl hfinishes,
    fun hnot => finishes_addImported_refused hnot fun _ => h.intact⟩

theorem addImported_finishes {w' : World} {own' : Entries}
    (himportable : Importable formats p key isPrivateKey)
    (haligned : Aligned w'.memory (w'.archive.getD []) own' kept)
    (hdeleted : w'.memory.deleted = false)
    (hminimums : ¬ (0 < w'.memory.minEncryptionVersion ∧
      w'.memory.minEncryptionVersion < w'.memory.minDecryptionVersion)) :
    Finishes (faulty false) (addImported formats p key isPrivateKey entry) (w', 0)
      (fun _ _ => True) (Intact own kept w) := by
  refine (finishes_addImported himportable fun entry => iff_true_intro ?_).mpr trivial
  have hmovable : Movable (added (sized key w') entry).memory (w'.archive.getD []) _ _ _ :=
    movable_sameRing (movable_grown haligned entry)
  refine persist_movable_faults hmovable haligned.archiveMin_eq (fun _ => trivial) ?_ ?_
  · intro e herror
    have hone := haligned.one_le
    have hdec : (added (sized key w') entry).memory.minDecryptionVersion =
        w'.memory.minDecryptionVersion := if_neg (show ¬ w'.memory.minDecryptionVersion = 0 by omega)
    have hnone := hmovable.persistError_eq hdeleted (by rw [hdec]; exact hminimums)
    rw [hnone] at herror
    cases herror
  · intro e w'' m _ _ hbudget
    omega

theorem unharmed_completed (h : Sound own kept w q archive) (entry : KeyEntry)
    {imported : KeyEntry}
    (himported : withPrivateKey formats w.memory w.memory.latestVersion key = .ok imported) :
    Finishes (faulty false) (importPrivateKeyForVersion formats w.memory.latestVersion key) (w, 1)
        (fun _ _ => True)
        (fun e s => Answered e → Finishes (faulty false)
          (addImported formats w.memory key true entry) s (fun _ _ => True) (Intact own kept w)) ↔
      w.memory.deleted = false := by
  have himportable := importable_of_withPrivateKey himported
  rw [importPrivateKeyForVersion, finishes_bind, finishes_policy, finishes_bind, finishes_resume,
    himported]
  simp only [outcomePost]
  rw [finishes_bind, finishes_setKey]
  have haligned := aligned_replaced h.aligned h.aligned.le_latest le_rfl imported
  rw [← h.getD] at haligned
  cases hdeleted : w.memory.deleted with
  | true =>
    have hrefused : persistError { w.memory with
        keys := w.memory.keys.insert w.memory.latestVersion imported } =
        some (fault "key has been deleted, not persisting") := if_pos hdeleted
    rw [finishes_persist_refused hrefused]
    exact ⟨fun hfinishes => absurd (hfinishes answered_failed) (importable_harms himportable rfl),
      by simp⟩
  | false =>
    refine ⟨fun _ => rfl, fun _ => ?_⟩
    refine persist_movable_faults haligned.movable h.aligned.archiveMin_eq (fun _ => trivial) ?_ ?_
    · intro e herror
      rw [haligned.movable.persistError_eq hdeleted h.minimums] at herror
      cases herror
    intro e w' m _ hfault hbudget _
    have hzero : m = 0 := by omega
    subst hzero
    have hmemory := hfault.memory
    have haligned' : Aligned w'.memory (w'.archive.getD [])
        (Function.update own w.memory.latestVersion (some imported)) kept := by
      rw [hmemory]
      rcases hfault.archive with hsame | ⟨archive', hsome, hwindow⟩
      · rw [hsame]
        exact haligned
      · rw [hsome]
        exact { haligned with window := hwindow }
    refine addImported_finishes himportable haligned' ?_ ?_
    · rw [hmemory]
      exact hdeleted
    · rw [hmemory]
      exact h.minimums

theorem unharmed_import (h : InOrder own kept w) :
    Unharmed formats own kept w (.importKey key isPrivateKey) ↔
      KeepsVersions formats w.memory key isPrivateKey := by
  have hbody : ∀ entry, Finishes (faulty false)
      (policy >>= fun p => completeLatest formats p key isPrivateKey >>= fun completed =>
        if completed then pure () else addImported formats p key isPrivateKey entry) (w, 1)
      (fun _ _ => True) (Intact own kept w) ↔ KeepsVersions formats w.memory key isPrivateKey := by
    intro entry
    rw [finishes_bind, finishes_policy, finishes_bind, completeLatest, KeepsVersions]
    by_cases hmissing : 0 < w.memory.latestVersion ∧
        (w.memory.entry w.memory.latestVersion).isPrivateKeyMissing ∧ isPrivateKey
    · rw [if_pos hmissing, if_pos hmissing, finishes_bind, finishes_capture]
      obtain ⟨hpositive, -, rfl⟩ := hmissing
      cases h with
      | new hnew => exact absurd hnew.latest (by omega)
      | sound q archive hsound =>
        cases himported : withPrivateKey formats w.memory w.memory.latestVersion key with
        | ok imported =>
          rw [← unharmed_completed hsound entry himported]
          refine finishes_congr fun e s => ?_
          cases e with
          | panic cause =>
            have hno : ¬ Answered (.panic cause) := fun hanswered => hanswered cause rfl
            exact iff_of_true (fun h => absurd h hno) fun h => absurd h hno
          | failed cause => exact ⟨fun h _ => h, fun h => h answered_failed⟩
          | refused text => exact ⟨fun h _ => h, fun h => h fun _ => KeyFault.noConfusion⟩
        | error e =>
          rw [importPrivateKeyForVersion, finishes_bind, finishes_policy, finishes_bind,
            finishes_resume, himported]
          have horder : InOrder own kept w := .sound q archive hsound
          cases e with
          | panic cause =>
            exact ⟨fun _ => trivial, fun _ hanswered => absurd rfl (hanswered cause)⟩
          | failed cause | refused text => exact unharmed_addImported horder
    · rw [if_neg hmissing, if_neg hmissing]
      exact unharmed_addImported h
  rw [Unharmed, operate, importPublicOrPrivate, finishes_bind]
  exact finishes_newEntry hbody

/-- What an operation must not do, for the key ring to be intact after every failure. -/
def Harmless (formats : KeyFormats) (p : Policy) : KeyOperation → Prop
  | .rotate => True
  | .importKey key isPrivateKey => KeepsVersions formats p key isPrivateKey
  | .importPrivateKey version key =>
    ∀ entry, withPrivateKey formats p version key = .ok entry →
      p.keys.lookup version = some entry
  | .certificateChain version certChain =>
    ∀ entry, withCertificateChain formats p version certChain = .ok entry →
      p.keys.lookup version = some entry
  | .trim minAvailableVersion =>
    ∀ version, minAvailableVersion = .ok (some version) → ¬ Trims p version
  | .configure req => ¬ SetsPeriod req p

/-- A policy in good order survives an operation with a failing storage step iff the operation
rotates the key, trims nothing, changes no entry in place, adds no imported version and sets no
rotation period. -/
theorem failed_operation_intact (formats : KeyFormats) {own kept : Entries} {w : World}
    (h : InOrder own kept w) (op : KeyOperation) :
    Unharmed formats own kept w op ↔ Harmless formats w.memory op := by
  cases op with
  | rotate => exact ⟨fun _ => trivial, fun _ => unharmed_rotate h⟩
  | importKey key isPrivateKey => exact unharmed_import h
  | importPrivateKey version key | certificateChain version certChain => exact unharmed_update h
  | trim minAvailableVersion => exact unharmed_trim h minAvailableVersion
  | configure req => exact unharmed_configure h req

def sampleEntry (n : UInt8) : KeyEntry := { key := [n], hmacKey := [n] }

def sampleOwn : Entries := fun v => some (sampleEntry (UInt8.ofNat v.toNat))

def samplePolicy : Policy where
  keys := (∅ : KeyEntryMap).insert 3 (sampleEntry 3)
  minDecryptionVersion := 3
  minEncryptionVersion := 3
  latestVersion := 3
  archiveVersion := 3

def sampleWorld : World where
  memory := samplePolicy
  stored := some samplePolicy
  archive := some [{}, sampleEntry 1, sampleEntry 2, sampleEntry 3]

theorem samplePolicy_keys : KeysFrom samplePolicy.keys 3 3 sampleOwn := by
  constructor
  · intro v hlo hhi
    have hv : v = 3 := by omega
    subst hv
    exact ⟨sampleEntry 3, rfl, rfl⟩
  · intro v hv
    exact AList.lookup_insert_ne (show v ≠ 3 by omega)

theorem sampleWorld_inOrder : InOrder sampleOwn sampleOwn sampleWorld := by
  refine .sound samplePolicy _ ⟨rfl, rfl, samplePolicy_keys, rfl, rfl, ?_, by decide⟩
  refine ⟨by decide, by decide, by decide, by decide, rfl, rfl, samplePolicy_keys, ?_⟩
  intro v hlo hhi
  have hhi' : v ≤ 3 := hhi
  have hv : v = 1 ∨ v = 2 ∨ v = 3 := by omega
  rcases hv with rfl | rfl | rfl
  all_goals exact ⟨_, rfl, rfl⟩

theorem sampleWorld_intact :
    Unharmed noFormats sampleOwn sampleOwn sampleWorld .rotate ∧
      ¬ Unharmed noFormats sampleOwn sampleOwn sampleWorld (.trim (.ok (some 2))) := by
  refine ⟨(failed_operation_intact noFormats sampleWorld_inOrder _).mpr trivial, fun hunharmed => ?_⟩
  refine (failed_operation_intact noFormats sampleWorld_inOrder _).mp hunharmed 2 rfl ?_
  exact ⟨by decide, by decide, by decide, rfl⟩

def failingRun (op : KeyOperation) (k : Nat) : Except KeyFault Unit × World :=
  runFrom exec (fun n => if n = k then { storageError := some .internal } else {})
    (operate noFormats op).run sampleWorld

/-- Versions below 2 are to be trimmed and the write of the policy fails. In memory the
archive begins at 2, in storage the slot of version 1 has the key of version 3. -/
theorem failed_trim_loses_version :
    let w := (failingRun (.trim (.ok (some 2))) 10).2
    (failingRun (.trim (.ok (some 2))) 10).1.isOk = false ∧
      sampleWorld.memory.archiveMinVersion = 0 ∧ w.memory.archiveMinVersion = 2 ∧
      (sampleWorld.archive.bind fun archive => slot archive 1) = some (sampleEntry 1) ∧
      w.stored.map (fun q => q.minAvailableVersion) = some 0 ∧
      (w.archive.bind fun archive => slot archive 1) = some (sampleEntry 3) := by
  decide +kernel

end VaultProofs.FailedKeyOperations
