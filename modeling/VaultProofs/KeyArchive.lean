import VaultProofs.KeyRequests

/-!
Runs of rotations, configuration changes and trims on one policy, with reliable storage. Whatever
the requests, keys and archive stay aligned with the keys generated for the versions.
-/

namespace VaultProofs.KeyArchive

open ProgramOutcomes GoSlices TransitKeys KeyOperations KeyPersistence KeyAlignment KeyRequests
open VaultEffects (GoError)

inductive KeyRequest where
  | rotate
  | configure (req : ConfigRequest)
  | trim (minAvailableVersion : Except GoError (Option Int))

def serve (formats : KeyFormats) : KeyRequest → KeyM Unit
  | .rotate => rotate formats
  | .configure req => do
      let _ ← pathKeysConfigWrite req
      pure ()
  | .trim minAvailableVersion => do
      let _ ← pathTrimUpdate minAvailableVersion
      pure ()

structure Served where
  request : KeyRequest
  env : Nat → StepEnv := fun _ => {}

def runRequest (formats : KeyFormats) (w : World) (r : Served) : Except KeyFault Unit × World :=
  runFrom exec r.env (serve formats r.request).run w

def runRequests (formats : KeyFormats) (w : World) (rs : List Served) : World :=
  rs.foldl (fun w r => (runRequest formats w r).2) w

structure NewPolicy (p : Policy) : Prop where
  latest : p.latestVersion = 0
  keys : p.keys = ∅
  archive : p.archiveVersion = 0
  archiveMin : p.archiveMinVersion = 0
  available : p.minAvailableVersion = 0
  minDecryption : p.minDecryptionVersion = 0

theorem newPolicy_sameRing {p q : Policy} (h : NewPolicy p) (hring : SameRing p q) :
    NewPolicy q where
  latest := hring.latest.trans h.latest
  keys := hring.keys.trans h.keys
  archive := hring.archive.trans h.archive
  archiveMin := hring.archiveMin.trans h.archiveMin
  available := hring.available.trans h.available
  minDecryption := hring.minDecryption.trans h.minDecryption

/-- The policy is new and nothing is stored, or it is aligned with its archive. -/
def Kept (w : World) : Prop :=
  NewPolicy w.memory ∧ w.stored = none ∧ w.archive = none ∨
    ∃ archive, w.archive = some archive ∧ Aligned w.memory archive w.written w.written

/-- What a request makes of a world: the policy is kept, and no version loses the entry generated
for it. -/
structure Continues (w w' : World) : Prop where
  kept : Kept w'
  latest_le : w.memory.latestVersion ≤ w'.memory.latestVersion
  written_eq : ∀ v, v ≤ w.memory.latestVersion → w'.written v = w.written v

theorem continues_of_failed {w w' : World} (hw : Kept w)
    (hwritten : ∀ v, v ≤ w.memory.latestVersion → w'.written v = w.written v := by intros; rfl)
    (hring : SameRing w.memory w'.memory := by exact ⟨rfl, rfl, rfl, rfl, rfl, rfl⟩)
    (hstored : w'.stored = w.stored := by rfl) (harchive : w'.archive = w.archive := by rfl) :
    Continues w w' := by
  refine ⟨?_, le_of_eq hring.latest.symm, hwritten⟩
  rcases hw with ⟨hnew, hnone, hempty⟩ | ⟨archive, hsome, haligned⟩
  · exact .inl ⟨newPolicy_sameRing hnew hring, hstored.trans hnone, harchive.trans hempty⟩
  refine .inr ⟨archive, harchive.trans hsome, ?_⟩
  exact aligned_congr (aligned_sameRing haligned hring)
    (fun v hv => hwritten v (le_of_le_of_eq hv hring.latest))
    (fun v hv => hwritten v (le_of_le_of_eq hv hring.latest))

variable {w : World}

theorem continues_refl (hw : Kept w) : Continues w w :=
  continues_of_failed hw

theorem Continues.trans {w w' w'' : World} (h : Continues w w') (h' : Continues w' w'') :
    Continues w w'' where
  kept := h'.kept
  latest_le := le_trans h.latest_le h'.latest_le
  written_eq := fun v hv =>
    (h'.written_eq v (le_trans hv h.latest_le)).trans (h.written_eq v hv)

def settled (p : Policy) : Policy :=
  dropKeys { p with
    archiveVersion := p.latestVersion, archiveMinVersion := p.minAvailableVersion }

section steps

variable {b : Bool} {own kept : Entries} {lo : Int} {n : Nat} {err : KeyFault → Trial → Prop}

section persist

variable {ok : Unit → Trial → Prop}
  (hrefused : ∀ cause, persistError w.memory = some (.failed cause) → err (.failed cause) (w, n))
include hrefused

theorem persist_of_checked (h : persistError w.memory = none →
    Finishes (faulty b) persist (w, n) ok err) : Finishes (faulty b) persist (w, n) ok err := by
  cases hcheck : persistError w.memory with
  | some e =>
    obtain ⟨cause, rfl⟩ := persistError_failed hcheck
    exact (finishes_persist_refused hcheck).mpr (hrefused cause hcheck)
  | none => exact h hcheck

theorem persist_movable (h : Movable w.memory (w.archive.getD []) own kept lo)
    (hok : ∀ archive', persistError w.memory = none →
      Aligned (settled w.memory) archive' own kept →
      ok () ({ w with memory := settled w.memory, stored := some (settled w.memory),
                      archive := some archive' }, n))
    (hfault : ∀ archive' cause m, n = m + 1 → Aligned (settled w.memory) archive' own kept →
      err (.failed cause) (w, m) ∧ err (.failed cause) (halfTrimmed w, m) ∧
        err (.failed cause) ({ halfTrimmed w with archive := some archive' }, m)) :
    Finishes (faulty b) persist (w, n) ok err := by
  refine persist_of_checked hrefused fun hcheck => ?_
  obtain ⟨archive', hmoved, hwindow⟩ := h.archived_eq
  rw [finishes_persist_toArchive hcheck h.containsMinimum hmoved]
  exact ⟨hok archive' hcheck (h.aligned hwindow),
    fun m cause hn => hfault archive' cause m hn (h.aligned hwindow)⟩

theorem persist_lowered (h : Lowered w.memory (w.archive.getD []) own kept lo)
    (hok : ∀ keys, persistError w.memory = none →
      Aligned { w.memory with keys := keys } (w.archive.getD []) kept kept →
      ok () ({ w with memory := { w.memory with keys := keys },
                      stored := some { w.memory with keys := keys } }, n))
    (hfault : ∀ cause m, n = m + 1 → err (.failed cause) (w, m)) :
    Finishes (faulty b) persist (w, n) ok err := by
  refine persist_of_checked hrefused fun hcheck => ?_
  obtain ⟨keys, hmoved, haligned⟩ := h.loadKeys_eq
  rw [finishes_persist_fromArchive hcheck h.not_containsMinimum hmoved]
  exact ⟨hok keys hcheck haligned, fun m cause hn => hfault cause m hn⟩

end persist

section requests

variable {ok : Trial → Prop}
  (hring : NewPolicy w.memory ∨ Aligned w.memory (w.archive.getD []) own kept)
include hring

theorem finishes_trim {raw : Except GoError (Option Int)}
    (hrefused : ∀ e, Answered e → err e (w, n))
    (hpersist : ∀ version,
      Movable { w.memory with minAvailableVersion := version } (w.archive.getD []) own kept
        w.memory.minDecryptionVersion →
      Finishes (faulty b) persist
        ({ w with memory := { w.memory with minAvailableVersion := version } }, n)
        (fun _ s => ok s ∧ err (.panic .nilDereference) s)
        (afterDefer (fun p => { p with minAvailableVersion := w.memory.minAvailableVersion }) err)) :
    Finishes (faulty b) (pathTrimUpdate raw) (w, n) (fun _ s => ok s) err := by
  rw [pathTrimUpdate, finishes_bind, finishes_policy]
  split
  · exact hrefused _ answered_failed
  · exact hrefused _ answered_refusal
  rename_i version
  rw [finishes_bind, finishes_resume]
  cases hcheck : checkTrim w.memory version with
  | error e => exact hrefused e (checkTrim_answered hcheck)
  | ok done =>
    obtain ⟨hle, -, hdec, hne⟩ := checkTrim_ok hcheck
    rcases hring with hnew | haligned
    · exact absurd hnew.minDecryption hne
    simp only [outcomePost]
    rw [finishes_bind, finishes_setPolicy, finishes_bind, finishes_restoring]
    refine (hpersist version (movable_trimmed haligned hle hdec)).imp ?_
    rintro - s ⟨hok, hpanic⟩
    rw [finishes_bind, finishes_policy]
    exact finishes_format (fun _ => hok) hpanic

/-- A configuration change is refused, changes nothing, or persists the policy with a minimum
decryption version that is lower or not. -/
theorem finishes_configWrite {req : ConfigRequest}
    (hrefused : ∀ e, Answered e → err e ({ w with
      memory := restoreConfig w.memory (withConfig w.memory (configure req w.memory).1) }, n))
    (hsame : ok (w, n) ∧ err (.panic .nilDereference) (w, n))
    (hpersist : ∀ config, config = (configure req w.memory).1 →
      config.minDecryptionVersion =
        (req.minDecryptionVersion.map forcedMinimum).getD w.memory.minDecryptionVersion →
      Lowered (withConfig w.memory config) (w.archive.getD []) own kept
          w.memory.minDecryptionVersion ∨
        Movable (withConfig w.memory config) (w.archive.getD []) own kept
          w.memory.minDecryptionVersion →
      Finishes (faulty b) persist ({ w with memory := withConfig w.memory config }, n)
        (fun _ s => ok s ∧ err (.panic .nilDereference) s)
        (afterDefer (restoreConfig w.memory) err)) :
    Finishes (faulty b) (pathKeysConfigWrite req) (w, n) (fun _ s => ok s) err := by
  rw [pathKeysConfigWrite, finishes_bind, finishes_policy, finishes_restoring, finishes_bind,
    finishes_setPolicy, finishes_bind, finishes_resume]
  have hback : ∀ e, Answered e → afterDefer (restoreConfig w.memory) err e
      ({ w with memory := withConfig w.memory (configure req w.memory).1 }, n) :=
    fun e he => (afterDefer_answered he).mpr (hrefused e he)
  have hshow : ∀ s, ok s ∧ err (.panic .nilDereference) s → Finishes (faulty b)
      (policy >>= fun p => resume (formatKeyPolicy p) >>= fun resp =>
        (pure { resp with warnings := configWarnings req } : KeyM KeyPolicyResponse)) s
      (fun _ s => ok s) (afterDefer (restoreConfig w.memory) err) := by
    intro s hs
    rw [finishes_bind, finishes_policy, finishes_bind]
    exact finishes_format (fun _ => hs.1) hs.2
  cases hconfigure : configure req w.memory with
  | mk config outcome =>
    rw [hconfigure] at hback
    cases outcome with
    | error e => exact hback e (configure_answered hconfigure)
    | ok needed =>
      simp only [outcomePost]
      rcases hring with hnew | haligned
      · -- without a version the policy is not persisted
        rw [configure_new hconfigure hnew.latest hnew.minDecryption, if_pos rfl, finishes_bind]
        obtain ⟨cause, hcheck⟩ := persistError_of_latest
          (p := withConfig w.memory config) (lt_of_eq_of_lt hnew.latest (by omega))
        rw [finishes_persist_refused hcheck]
        exact hback _ answered_failed
      have hone := haligned.one_le
      have hlatest := haligned.le_latest
      obtain ⟨hrange, hasked, hnothing, havail⟩ := configure_ok hconfigure (by omega)
      cases needed with
      | false =>
        rw [hnothing rfl, if_neg Bool.false_ne_true]
        exact hshow _ hsame
      | true =>
        rw [if_pos rfl, finishes_bind]
        refine (hpersist config (by rw [hconfigure]) hasked ?_).imp fun _ => hshow
        by_cases hless : config.minDecryptionVersion < w.memory.minDecryptionVersion
        · exact .inl (lowered_sameRing (haligned.lowered (by omega) (havail rfl) hless)
            ⟨rfl, rfl, rfl, rfl, rfl, rfl⟩)
        · exact .inr (movable_sameRing (haligned.movable_raised (not_lt.mp hless)
            (by omega)))

end requests

end steps

/-- A request ends in a world that continues the one it found, and no index was out of
range. -/
def Serves (w : World) {α : Type} (x : KeyM α) : Prop :=
  Finishes (faulty true) x (w, 0) (fun _ s => s.2 = 0 ∧ Continues w s.1) fun e s =>
    s.2 = 0 ∧ Continues w s.1 ∧ e ≠ .panic .indexOutOfRange

theorem movable_added (hw : Kept w) (entry : KeyEntry) :
    ∃ lo, Movable (added w entry).memory (w.archive.getD []) (added w entry).written
      (added w entry).written lo := by
  rcases hw with ⟨hnew, -, hempty⟩ | ⟨archive, hsome, haligned⟩
  · rw [hempty]
    exact ⟨1, movable_first hnew.latest hnew.keys hnew.archive hnew.archiveMin hnew.available
      hnew.minDecryption entry w.written⟩
  · rw [hsome]
    exact ⟨_, movable_grown haligned entry⟩

theorem Kept.ring (hw : Kept w) :
    NewPolicy w.memory ∨ Aligned w.memory (w.archive.getD []) w.written w.written := by
  rcases hw with ⟨hnew, -⟩ | ⟨archive, hsome, haligned⟩
  · exact .inl hnew
  · rw [hsome]
    exact .inr haligned

theorem serves_rotate {formats : KeyFormats} (hw : Kept w) : Serves w (rotate formats) := by
  rw [Serves, rotate, finishes_bind, finishes_policy]
  split
  · exact ⟨rfl, continues_refl hw, KeyFault.noConfusion⟩
  rw [finishes_restoring, finishes_bind]
  refine finishes_rotateInMemory (fun entry => ?_) fun cause => ?_
  · rw [finishes_bind, finishes_policy, finishes_bind, finishes_setPolicy]
    obtain ⟨lo, hmovable⟩ := movable_added hw entry
    have holder : ∀ v, v ≤ w.memory.latestVersion → (added w entry).written v = w.written v :=
      fun v hv => Function.update_of_ne (by omega) _ _
    refine persist_movable (fun cause _ => ?_)
      (movable_sameRing hmovable) (fun archive' _ haligned => ?_) nofun
    · exact ⟨rfl, continues_of_failed hw holder, KeyFault.noConfusion⟩
    · refine ⟨rfl, .inr ⟨archive', rfl, haligned⟩, ?_, holder⟩
      show w.memory.latestVersion ≤ w.memory.latestVersion + 1
      omega
  · exact ⟨rfl, continues_of_failed hw, KeyFault.noConfusion⟩

theorem served_of_continues {w' : World} (h : Continues w w') :
    (((w', 0) : Trial).2 = 0 ∧ Continues w w') ∧
      ((w', 0) : Trial).2 = 0 ∧ Continues w w' ∧
        (.panic .nilDereference : KeyFault) ≠ .panic .indexOutOfRange :=
  ⟨⟨rfl, h⟩, rfl, h, nofun⟩

theorem serves_trim (hw : Kept w) (raw : Except GoError (Option Int)) :
    Serves w (pathTrimUpdate raw) := by
  refine finishes_trim hw.ring (fun e he => ⟨rfl, continues_refl hw, he _⟩)
    fun version hmovable => persist_movable (fun cause _ => ?_) hmovable
      (fun archive' _ haligned => ?_) nofun
  · exact ⟨rfl, continues_of_failed hw, KeyFault.noConfusion⟩
  · exact served_of_continues ⟨.inr ⟨archive', rfl, haligned⟩, le_rfl, fun _ _ => rfl⟩

theorem serves_configure (hw : Kept w) (req : ConfigRequest) :
    Serves w (pathKeysConfigWrite req) := by
  have hback : ∀ {e : KeyFault} {config : KeyConfig}, Answered e →
      ((w, 0) : Trial).2 = 0 ∧ Continues w { w with
        memory := restoreConfig w.memory (withConfig w.memory config) } ∧
        e ≠ .panic .indexOutOfRange := fun he =>
    ⟨rfl, continues_of_failed hw, he _⟩
  refine finishes_configWrite hw.ring (fun e he => hback he)
    (served_of_continues (continues_refl hw)) fun config _ _ hmove => ?_
  have hrefused : ∀ cause, afterDefer (restoreConfig w.memory) (fun e s => s.2 = 0 ∧
      Continues w s.1 ∧ e ≠ .panic .indexOutOfRange) (.failed cause)
      ({ w with memory := withConfig w.memory config }, 0) := fun cause => hback answered_failed
  rcases hmove with hlowered | hmovable
  · refine persist_lowered (fun cause _ => hrefused cause) hlowered (fun keys _ haligned => ?_) nofun
    refine served_of_continues ⟨?_, le_rfl, fun _ _ => rfl⟩
    rcases hw with ⟨hnew, -⟩ | ⟨archive, hsome, -⟩
    · exact absurd hnew.latest hlowered.latest_ne_zero
    · rw [hsome] at haligned
      exact .inr ⟨archive, hsome, haligned⟩
  · refine persist_movable (fun cause _ => hrefused cause) hmovable
      (fun archive' _ haligned => ?_) nofun
    exact served_of_continues ⟨.inr ⟨archive', rfl, haligned⟩, le_rfl, fun _ _ => rfl⟩

theorem serves_serve (formats : KeyFormats) (hw : Kept w) (r : KeyRequest) :
    Serves w (serve formats r) := by
  cases r with
  | rotate => exact serves_rotate hw
  | configure req => exact finishes_bind.mpr (serves_configure hw req)
  | trim raw => exact finishes_bind.mpr (serves_trim hw raw)

section runs

variable (formats : KeyFormats)

theorem runRequest_continues {w : World} (hw : Kept w) {r : Served}
    (henv : ∀ n, (r.env n).storageError = none) :
    Continues w (runRequest formats w r).2 ∧
      (runRequest formats w r).1 ≠ .error (.panic .indexOutOfRange) := by
  have hpost := ends_run henv (serves_serve formats hw r.request) 0
  cases hresult : (runRequest formats w r).1 with
  | ok value =>
    rw [runRequest, runFrom] at hresult
    rw [hresult] at hpost
    exact ⟨hpost.2, nofun⟩
  | error e =>
    rw [runRequest, runFrom] at hresult
    rw [hresult] at hpost
    obtain ⟨-, hcont, hne⟩ := hpost
    refine ⟨hcont, fun heq => hne ?_⟩
    cases heq
    rfl

theorem runRequests_continues {w : World} (hw : Kept w) {rs : List Served}
    (henv : ∀ r ∈ rs, ∀ n, (r.env n).storageError = none) :
    Continues w (runRequests formats w rs) := by
  induction rs generalizing w with
  | nil => exact continues_refl hw
  | cons r rs ih =>
    obtain ⟨hstep, -⟩ := runRequest_continues formats hw (henv r (.head _))
    exact hstep.trans (ih hstep.kept fun r' hr' => henv r' (.tail _ hr'))

theorem kept_new {p : Policy} (hnew : NewPolicy p) : Kept { memory := p } :=
  .inl ⟨hnew, rfl, rfl⟩

/-- After every run in which the policy has been persisted, the keys are those of the versions from
the minimum decryption version to the latest, the archive has each available version in its slot,
and every version has, now as later, the entry generated for it. No request meets an index out of
range. -/
theorem keys_match_archive {p : Policy} (hnew : NewPolicy p) {rs later : List Served}
    (henv : ∀ r ∈ rs ++ later, ∀ n, (r.env n).storageError = none)
    (hpersisted : (runRequests formats { memory := p } rs).stored.isSome = true) :
    let w := runRequests formats { memory := p } rs
    (∀ v, v ∈ w.memory.keys ↔
      w.memory.minDecryptionVersion ≤ v ∧ v ≤ w.memory.latestVersion) ∧
    (∃ archive, w.archive = some archive ∧
      ∀ v, max 1 w.memory.minAvailableVersion ≤ v → v ≤ w.memory.latestVersion →
        ∃ entry, w.written v = some entry ∧
          slot archive (v - w.memory.minAvailableVersion) = some entry) ∧
    (∀ v ∈ w.memory.keys, w.memory.keys.lookup v = w.written v) ∧
    (∀ v, v ≤ w.memory.latestVersion →
      (runRequests formats { memory := p } (rs ++ later)).written v = w.written v) ∧
    ∀ rs₁ r rs₂, rs = rs₁ ++ r :: rs₂ →
      (runRequest formats (runRequests formats { memory := p } rs₁) r).1 ≠
        .error (.panic .indexOutOfRange) := by
  intro w
  have henvrs : ∀ r ∈ rs, ∀ n, (r.env n).storageError = none :=
    fun r hr => henv r (List.mem_append_left _ hr)
  have hcont : Continues { memory := p } w := runRequests_continues formats (kept_new hnew) henvrs
  have hlater := runRequests_continues formats hcont.kept
    fun r hr => henv r (List.mem_append_right _ hr)
  rcases hcont.kept with ⟨-, hnone, -⟩ | ⟨archive, hsome, haligned⟩
  · rw [hnone] at hpersisted
    cases hpersisted
  refine ⟨fun v => haligned.keys.mem_iff, ⟨archive, hsome, haligned.window⟩, ?_, ?_, ?_⟩
  · intro v hv
    obtain ⟨hlo, hhi⟩ := haligned.keys.mem_iff.mp hv
    obtain ⟨entry, hwritten, hlookup⟩ := haligned.keys.inside v hlo hhi
    rw [hlookup, hwritten]
  · rw [runRequests, List.foldl_append]
    exact hlater.written_eq
  intro rs₁ r rs₂ hsplit
  have henvrs₁ : ∀ r' ∈ rs₁, ∀ n, (r'.env n).storageError = none :=
    fun r' hr' => henvrs r' (by rw [hsplit]; exact List.mem_append_left _ hr')
  have hbefore := runRequests_continues formats (kept_new hnew) henvrs₁
  refine (runRequest_continues formats hbefore.kept (henvrs r ?_)).2
  rw [hsplit]
  exact List.mem_append_right _ (.head _)

end runs

def noFormats : KeyFormats where
  parsePKCS8PrivateKey _ := .error .internal
  decodePEM _ := none
  parsePKIXPublicKey _ := .error .internal
  marshalPKIXPublicKey _ _ _ := .error .internal
  encodePEM bytes := bytes
  encodeBase64 bytes := bytes
  decodeBase64 bytes := .ok bytes

/-- Three rotations with random bytes of their own, both minimums raised to 3, a trim to 2, and the
minimum decryption version lowered to 2 again. -/
def sampleRun : List Served :=
  [{ request := .rotate, env := fun n => { bytes := [1, UInt8.ofNat n] } },
    { request := .rotate, env := fun n => { bytes := [2, UInt8.ofNat n] } },
    { request := .rotate, env := fun n => { bytes := [3, UInt8.ofNat n] } },
    { request := .configure { minDecryptionVersion := some 3, minEncryptionVersion := some 3 } },
    { request := .trim (.ok (some 2)) },
    { request := .configure { minDecryptionVersion := some 2 } }]

theorem newPolicy_default : NewPolicy {} :=
  ⟨rfl, rfl, rfl, rfl, rfl, rfl⟩

theorem sampleRun_steady : ∀ r ∈ sampleRun ++ [], ∀ n, (r.env n).storageError = none := by
  intro r hr n
  simp only [sampleRun, List.append_nil, List.mem_cons, List.not_mem_nil, or_false] at hr
  rcases hr with rfl | rfl | rfl | rfl | rfl | rfl
  all_goals rfl

theorem sampleRun_keys :
    2 ∈ (runRequests noFormats {} sampleRun).memory.keys ∧
      (runRequests noFormats {} sampleRun).memory.keys.lookup 2 =
        (runRequests noFormats {} sampleRun).written 2 := by
  obtain ⟨hkeys, -, hown, -, -⟩ := keys_match_archive noFormats newPolicy_default
    sampleRun_steady (by decide +kernel)
  have hmem := (hkeys 2).mpr (by decide +kernel)
  exact ⟨hmem, hown 2 hmem⟩

end VaultProofs.KeyArchive
