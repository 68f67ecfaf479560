import VaultProofs.KeyAlignment

/-!
What the requests on a key come to before the policy is persisted: the entry of a new version, the
new configuration, and which requests are refused.
-/

namespace VaultProofs.KeyRequests

open ProgramOutcomes TransitKeys KeyOperations KeyPersistence KeyAlignment
open VaultEffects (GoError)

variable {b : Bool} {s : Trial} {α β : Type}

/-- A program that changes nothing, and stops only with an error. -/
def Reads (b : Bool) (x : KeyM α) : Prop :=
  ∀ s, Finishes (faulty b) x s (fun _ s' => s' = s) fun e s' => s' = s ∧ ∃ cause, e = .failed cause

theorem reads_pure {value : α} : Reads b (pure value) :=
  fun _ => rfl

theorem reads_fault {text : String} : Reads b (throw (fault text) : KeyM α) :=
  fun _ => ⟨rfl, _, rfl⟩

theorem reads_bind {x : KeyM α} {f : α → KeyM β} (hx : Reads b x) (hf : ∀ value, Reads b (f value)) :
    Reads b (x >>= f) := by
  intro s
  refine (hx s).bind fun value s' hs' => ?_
  subst hs'
  exact hf value s'

theorem reads_perform {op : KeyOp} (hsame : ∀ env w, (effect env op w).2 = w)
    (hstored : op.stored = false) : Reads (α := no_index op.Result) b (perform op) := by
  intro s answer s' hstep
  rcases step_cases hstep with ⟨env, rfl, rfl⟩ | ⟨e, n, rfl, rfl, -, -, hcount⟩
  · rw [hsame]
    rfl
  · rw [hstored] at hcount
    cases hcount
    exact ⟨rfl, e, rfl⟩

theorem reads_resume {result : Except KeyFault α}
    (h : ∀ e, result = .error e → ∃ cause, e = .failed cause) : Reads b (resume result) := by
  intro s
  cases result with
  | ok value => rfl
  | error e => exact ⟨rfl, h e rfl⟩

theorem reads_newEntry : Reads b newEntry :=
  reads_bind (reads_perform (fun _ _ => rfl) rfl) fun _ => reads_pure

variable {entry : KeyEntry}

theorem reads_withHMACKey {needed : Bool} : Reads b (withHMACKey needed entry) := by
  rw [withHMACKey]
  split
  · exact reads_bind (reads_perform (fun _ _ => rfl) rfl) fun _ => reads_pure
  · exact reads_pure

variable {formats : KeyFormats}

theorem formatPoint_failed {curve : Curve} {x y : Int} {e : KeyFault}
    (h : formatPoint formats curve x y = .error e) : ∃ cause, e = .failed cause := by
  rw [formatPoint] at h
  split at h
  · cases h
    exact ⟨_, rfl⟩
  split at h
  · cases h
    exact ⟨_, rfl⟩
  · cases h

theorem reads_generate {p : Policy} : Reads b (generate formats p entry) := by
  have hdraw : ∀ {op : KeyOp} {f : op.Result → KeyM KeyEntry},
      (∀ env w, (effect env op w).2 = w) → op.stored = false → (∀ value, Reads b (f value)) →
        Reads b (perform op >>= f) :=
    fun hsame hstored hf => reads_bind (reads_perform hsame hstored) hf
  rw [generate]
  split
  all_goals first
    | exact reads_fault
    | exact hdraw (fun _ _ => rfl) rfl fun _ => reads_pure
    | skip
  · split
    · exact reads_fault
    · exact hdraw (fun _ _ => rfl) rfl fun _ => reads_pure
  all_goals
    refine hdraw (fun _ _ => rfl) rfl fun _ => ?_
    exact reads_bind (reads_resume fun _ => formatPoint_failed) fun _ => reads_pure

def added (w : World) (entry : KeyEntry) : World :=
  { w with
    memory := grown w.memory entry,
    written := Function.update w.written (w.memory.latestVersion + 1) (some entry) }

variable {ok : Unit → Trial → Prop} {err : KeyFault → Trial → Prop}

theorem finishes_addVersion :
    Finishes (faulty b) (addVersion entry) s ok err ↔ ok () (added s.1 entry, s.2) := by
  simp only [addVersion, finishes_bind, finishes_policy, finishes_setPolicy, finishes_setKey]
  rfl

theorem finishes_rotateInMemory {w : World} {n : Nat} (hok : ∀ entry, ok () (added w entry, n))
    (herr : ∀ cause, err (.failed cause) (w, n)) :
    Finishes (faulty b) (rotateInMemory formats) (w, n) ok err := by
  have hread : ∀ {α : Type} {x : KeyM α} {f : α → KeyM Unit}, Reads b x →
      (∀ value, Finishes (faulty b) (f value) (w, n) ok err) →
      Finishes (faulty b) (x >>= f) (w, n) ok err := by
    intro α x f hx hf
    rw [finishes_bind]
    refine (hx (w, n)).mono ?_ ?_
    · rintro value s' rfl
      exact hf value
    · rintro e s' ⟨rfl, cause, rfl⟩
      exact herr cause
  refine hread reads_newEntry fun entry => ?_
  rw [finishes_bind, finishes_policy]
  refine hread reads_withHMACKey fun entry => hread reads_generate fun entry => ?_
  rw [finishes_addVersion]
  exact hok _

variable {req : ConfigRequest} {p : Policy} {config config' : KeyConfig} {latest : Int} {c : Bool}

variable {requested : Option Int}

theorem configMinDecryption_ok
    (h : configMinDecryption requested latest config = .ok (config', c)) :
    ∃ d, d = (requested.map forcedMinimum).getD config.minDecryptionVersion ∧
      config' = { config with minDecryptionVersion := d } ∧
      (d = config.minDecryptionVersion ∨ 1 ≤ d ∧ d ≤ latest) ∧
      (c = false → d = config.minDecryptionVersion) := by
  cases requested with
  | none =>
    cases h
    exact ⟨_, rfl, rfl, .inl rfl, fun _ => rfl⟩
  | some version =>
    simp only [configMinDecryption] at h
    split at h
    · cases h
    split at h
    · rename_i hsame
      cases h
      exact ⟨_, hsame.symm, rfl, .inl rfl, fun _ => rfl⟩
    split at h
    · cases h
    cases h
    refine ⟨forcedMinimum version, rfl, rfl, .inr ⟨?_, by omega⟩, Bool.noConfusion⟩
    rw [forcedMinimum]
    split
    · exact le_rfl
    · omega

theorem configMinEncryption_ok
    (h : configMinEncryption requested latest config = .ok (config', c)) :
    ∃ m, config' = { config with minEncryptionVersion := m } ∧
      (c = false → m = config.minEncryptionVersion) := by
  cases requested with
  | none =>
    cases h
    exact ⟨_, rfl, fun _ => rfl⟩
  | some version =>
    simp only [configMinEncryption] at h
    split at h
    · cases h
    split at h
    · cases h
      exact ⟨_, rfl, fun _ => rfl⟩
    · split at h
      · cases h
      · cases h
        exact ⟨_, rfl, Bool.noConfusion⟩

theorem configAutoRotate_config (requested : Option Int) (kt : KeyType) (config : KeyConfig) :
    ∃ period, (configAutoRotate requested kt config).1 = { config with autoRotatePeriod := period } ∧
      ((configAutoRotate requested kt config).2 = .ok false → period = config.autoRotatePeriod) := by
  cases requested with
  | none => exact ⟨_, rfl, fun _ => rfl⟩
  | some seconds =>
    simp only [configAutoRotate]
    split
    · exact ⟨_, rfl, fun _ => rfl⟩
    refine ⟨_, rfl, fun h => ?_⟩
    split at h
    · cases h
    · simpa using h

theorem configFlags_false (h : (configFlags req config).2 = false) :
    (configFlags req config).1 = config := by
  simp only [configFlags, Bool.or_eq_false_iff, bne_eq_false_iff_eq, decide_eq_false_iff_not] at h
  obtain ⟨⟨⟨hdel, hdec⟩, hexp⟩, hbak⟩ := h
  simp only [configFlags, hdel, hexp, hbak, if_neg hdec]

theorem checkAvailable_ok {available : Int} {done : Unit}
    (h : checkAvailable available config = .ok done) : available ≤ config.minDecryptionVersion := by
  rw [checkAvailable] at h
  split at h
  · cases h
  · split at h
    · cases h
    · omega

variable {e : KeyFault}

theorem configMinDecryption_answered (h : configMinDecryption requested latest config = .error e) :
    Answered e := by
  cases requested with
  | none => cases h
  | some version =>
    simp only [configMinDecryption] at h
    repeat' split at h
    all_goals cases h
    all_goals exact answered_refusal

theorem configMinEncryption_answered (h : configMinEncryption requested latest config = .error e) :
    Answered e := by
  cases requested with
  | none => cases h
  | some version =>
    simp only [configMinEncryption] at h
    repeat' split at h
    all_goals cases h
    all_goals exact answered_refusal

theorem checkMinimums_answered (h : checkMinimums config = .error e) : Answered e := by
  simp only [checkMinimums] at h
  split at h
  · cases h
    exact answered_refusal
  · cases h

theorem configAutoRotate_answered {kt : KeyType}
    (h : configAutoRotate requested kt config = (config', .error e)) : Answered e := by
  cases requested with
  | none => cases h
  | some seconds =>
    simp only [configAutoRotate] at h
    split at h
    · cases h
      exact answered_refusal
    split at h
    · cases h
      exact answered_refusal
    · cases h

theorem checkAvailable_answered {available : Int} (h : checkAvailable available config = .error e) :
    Answered e := by
  rw [checkAvailable] at h
  repeat' split at h
  all_goals cases h
  all_goals exact answered_refusal

/-- An accepted request keeps the minimum decryption version among the available ones; one that
changes nothing is not persisted. -/
theorem configure_spec {outcome : Except KeyFault Bool} (h : configure req p = (config, outcome)) :
    match outcome with
    | .error e => Answered e
    | .ok c => ∃ d,
        d = (req.minDecryptionVersion.map forcedMinimum).getD p.minDecryptionVersion ∧
        (d = p.minDecryptionVersion ∨ 1 ≤ d ∧ d ≤ p.latestVersion) ∧
        config.minDecryptionVersion = (if d = 0 then 1 else d) ∧
        (c = false → d ≠ 0 ∧ config = configOf p) ∧
        (c = true → p.minAvailableVersion ≤ config.minDecryptionVersion) := by
  rw [configure] at h
  split at h
  · rename_i hdecryption
    cases h
    exact configMinDecryption_answered hdecryption
  rename_i decryption hdecryption
  obtain ⟨d, hd, rfl, hrange, hdfalse⟩ := configMinDecryption_ok hdecryption
  split at h
  · rename_i hencryption
    cases h
    exact configMinEncryption_answered hencryption
  rename_i encryption hencryption
  obtain ⟨m, rfl, hmfalse⟩ := configMinEncryption_ok hencryption
  split at h
  · rename_i hminimums
    cases h
    exact checkMinimums_answered hminimums
  simp only at h
  split at h
  · cases h
    exact answered_failed
  rename_i requested _
  obtain ⟨period, hperiod, hpfalse⟩ := configAutoRotate_config requested p.type
    (configFlags req { configOf p with
      minDecryptionVersion := d, minEncryptionVersion := m }).1
  split at h
  · rename_i hrotate
    cases h
    exact configAutoRotate_answered hrotate
  rename_i config₃ rotation hrotate
  rw [hrotate] at hperiod hpfalse
  subst hperiod
  split at h
  · cases havail : checkAvailable p.minAvailableVersion _ with
    | error e =>
      rw [havail] at h
      cases h
      exact checkAvailable_answered havail
    | ok done =>
      rw [havail] at h
      cases h
      exact ⟨d, hd, hrange, rfl, Bool.noConfusion, fun _ => checkAvailable_ok havail⟩
  rename_i hneeded
  cases h
  simp only [Bool.not_eq_true, Bool.or_eq_false_iff] at hneeded
  obtain ⟨⟨⟨hdecryption', hencryption'⟩, hflags⟩, hrotation⟩ := hneeded
  subst hrotation
  refine ⟨d, hd, hrange, rfl, fun _ => ⟨?_, ?_⟩, Bool.noConfusion⟩
  · rintro rfl
    simp [configFlags] at hflags
  · rw [hpfalse rfl, configFlags_false hflags, hdfalse hdecryption',
      hmfalse hencryption']

theorem configure_answered (h : configure req p = (config, .error e)) : Answered e :=
  configure_spec h

theorem configure_new (h : configure req p = (config, .ok c)) (hlatest : p.latestVersion = 0)
    (hdec : p.minDecryptionVersion = 0) : c = true := by
  obtain ⟨d, -, hrange, -, hsame, -⟩ := configure_spec h
  by_contra hc
  have hne := (hsame (Bool.eq_false_iff.mpr hc)).1
  omega

theorem configure_ok (h : configure req p = (config, .ok c)) (hdec : p.minDecryptionVersion ≠ 0) :
    (config.minDecryptionVersion = p.minDecryptionVersion ∨
      1 ≤ config.minDecryptionVersion ∧ config.minDecryptionVersion ≤ p.latestVersion) ∧
    config.minDecryptionVersion =
      (req.minDecryptionVersion.map forcedMinimum).getD p.minDecryptionVersion ∧
    (c = false → config = configOf p) ∧
    (c = true → p.minAvailableVersion ≤ config.minDecryptionVersion) := by
  obtain ⟨d, hd, hrange, hmin, hsame, havail⟩ := configure_spec h
  rw [if_neg (by omega)] at hmin
  rw [hmin] at havail ⊢
  exact ⟨hrange, hd, fun hc => (hsame hc).2, havail⟩

theorem checkTrim_ok {version : Int} {done : Unit} (h : checkTrim p version = .ok done) :
    p.minAvailableVersion ≤ version ∧ version ≤ p.minEncryptionVersion ∧
      version ≤ p.minDecryptionVersion ∧ p.minDecryptionVersion ≠ 0 := by
  rw [checkTrim] at h
  repeat' split at h
  all_goals try cases h
  omega

theorem checkTrim_answered {version : Int} {e : KeyFault} (h : checkTrim p version = .error e) :
    Answered e := by
  rw [checkTrim] at h
  repeat' split at h
  all_goals cases h
  all_goals exact answered_refusal

theorem formatKeyPolicy_error {e : KeyFault} (h : formatKeyPolicy p = .error e) :
    e = .panic .nilDereference := by
  rw [formatKeyPolicy] at h
  split at h
  · cases h
    rfl
  · cases h

theorem finishes_format {b : Bool} {s : Trial} {ok : KeyPolicyResponse → Trial → Prop}
    {err : KeyFault → Trial → Prop} (hok : ∀ resp, ok resp s)
    (hpanic : err (.panic .nilDereference) s) :
    Finishes (faulty b) (resume (formatKeyPolicy p)) s ok err := by
  cases hformat : formatKeyPolicy p with
  | error e =>
    rw [formatKeyPolicy_error hformat]
    exact hpanic
  | ok resp => exact hok _

end VaultProofs.KeyRequests
