import VaultProofs.KeyArchive
import VaultProofs.TransitCiphers

/-!
Decryption against encryption, with a policy that may have been rotated since.
-/

namespace VaultProofs.CiphertextRoundTrip

open GoStrings GoDecimals EffectPrograms ProgramOutcomes TransitKeys KeyOperations KeyPersistence
open KeyAlignment KeyRequests TransitCiphers
open VaultEffects (GoError)
open KeyArchive (settled persist_movable noFormats)

structure Rotated (p q : Policy) : Prop where
  type : q.type = p.type
  derived : q.derived = p.derived
  kdf : q.kdf = p.kdf
  convergentEncryption : q.convergentEncryption = p.convergentEncryption
  convergentVersion : q.convergentVersion = p.convergentVersion
  minDecryption : q.minDecryptionVersion = p.minDecryptionVersion
  latest_le : p.latestVersion ≤ q.latestVersion
  keys : ∀ v, p.minDecryptionVersion ≤ v → v ≤ p.latestVersion →
    q.keys.lookup v = p.keys.lookup v

theorem Rotated.refl (p : Policy) : Rotated p p :=
  ⟨rfl, rfl, rfl, rfl, rfl, rfl, le_rfl, fun _ _ _ => rfl⟩

theorem Rotated.trans {p q r : Policy} (h : Rotated p q) (h' : Rotated q r) : Rotated p r where
  type := h'.type.trans h.type
  derived := h'.derived.trans h.derived
  kdf := h'.kdf.trans h.kdf
  convergentEncryption := h'.convergentEncryption.trans h.convergentEncryption
  convergentVersion := h'.convergentVersion.trans h.convergentVersion
  minDecryption := h'.minDecryption.trans h.minDecryption
  latest_le := le_trans h.latest_le h'.latest_le
  keys := fun v hlo hhi =>
    (h'.keys v (le_of_eq_of_le h.minDecryption hlo) (le_trans hhi h.latest_le)).trans (h.keys v hlo hhi)

def Ordered (w : World) : Prop :=
  ∃ archive own kept, w.archive = some archive ∧ Aligned w.memory archive own kept

theorem rotate_rotated (formats : KeyFormats) {w : World} (hw : Ordered w) :
    Finishes (faulty true) (rotate formats) (w, 0)
      (fun _ s => s.2 = 0 ∧ Ordered s.1 ∧ Rotated w.memory s.1.memory)
      (fun _ s => s.2 = 0 ∧ Ordered s.1 ∧ Rotated w.memory s.1.memory) := by
  have hstay : ((w, 0) : Trial).2 = 0 ∧ Ordered w ∧ Rotated w.memory w.memory :=
    ⟨rfl, hw, Rotated.refl _⟩
  rw [rotate, finishes_bind, finishes_policy]
  split
  · exact hstay
  rw [finishes_restoring, finishes_bind]
  refine finishes_rotateInMemory (fun entry => ?_) fun cause => hstay
  rw [finishes_bind, finishes_policy, finishes_bind, finishes_setPolicy]
  obtain ⟨archive, own, kept, hsome, haligned⟩ := hw
  have hone := haligned.one_le
  have hdec : (grown w.memory entry).minDecryptionVersion = w.memory.minDecryptionVersion :=
    if_neg (by omega)
  have hmovable := movable_grown haligned entry
  rw [show archive = w.archive.getD [] by rw [hsome, Option.getD_some]] at hmovable
  refine persist_movable (fun cause _ => ?_)
    (movable_sameRing hmovable) (fun archive' _ haligned' => ?_)
    fun _ _ _ hn _ => absurd hn (Nat.succ_ne_zero _).symm
  · have hring : SameRing w.memory { w.memory with imported := false } :=
      ⟨rfl, rfl, rfl, rfl, rfl, rfl⟩
    exact ⟨rfl, ⟨archive, own, kept, hsome, aligned_sameRing haligned hring⟩,
      rfl, rfl, rfl, rfl, rfl, rfl, le_rfl, fun _ _ _ => rfl⟩
  refine ⟨rfl, ⟨archive', _, _, rfl, haligned'⟩, rfl, rfl, rfl, rfl, rfl, hdec, ?_, ?_⟩
  · show w.memory.latestVersion ≤ w.memory.latestVersion + 1
    omega
  intro v hlo hhi
  obtain ⟨entry', hown', hlookup'⟩ := haligned'.keys.inside v
    (le_of_eq_of_le hdec hlo) (le_trans hhi (Int.le_add_one le_rfl))
  obtain ⟨found, hown, hlookup⟩ := haligned.keys.inside v hlo hhi
  rw [Function.update_of_ne (by omega), hown] at hown'
  cases hown'
  exact hlookup'.trans hlookup.symm

def rotateAll (formats : KeyFormats) (w : World) (envs : List (Nat → StepEnv)) : World :=
  envs.foldl (fun w env => (runFrom exec env (rotate formats).run w).2) w

theorem rotateAll_rotated (formats : KeyFormats) {w : World} (hw : Ordered w)
    {envs : List (Nat → StepEnv)} (henvs : ∀ env ∈ envs, ∀ n, (env n).storageError = none) :
    Rotated w.memory (rotateAll formats w envs).memory := by
  induction envs generalizing w with
  | nil => exact Rotated.refl _
  | cons env envs ih =>
    have hstep : Ordered (runFrom exec env (rotate formats).run w).2 ∧
        Rotated w.memory (runFrom exec env (rotate formats).run w).2.memory := by
      have hpost := ends_run (henvs env (.head _)) (rotate_rotated formats hw) 0
      cases hresult : (runFrom exec env (rotate formats).run w).1 with
      | ok value | error e =>
        rw [runFrom] at hresult
        rw [hresult] at hpost
        exact hpost.2
    exact hstep.2.trans (ih hstep.1 fun env' henv' => henvs env' (.tail _ henv'))

section keys

variable (suite : CipherSuite) {p q : Policy} (context : GoString) {ver : Int} {entry : KeyEntry}

theorem counterMode_length (key : GoString) :
    ∃ out, counterMode suite.hmacSHA256 256 key context 256 = .ok out ∧ out.length = 32 := by
  have hlength := suite.length_hmacSHA256 key (putUint32 0 ++ context ++ putUint32 256)
  refine ⟨suite.hmacSHA256 key (putUint32 0 ++ context ++ putUint32 256), ?_, hlength⟩
  have hrounds : List.range (256 / 256 + if 256 % 256 ≠ 0 then 1 else 0) = [0] := rfl
  simp only [counterMode, hrounds, counterRounds, hlength]
  rw [if_neg (by decide), if_neg (by decide), if_neg (by decide), List.nil_append]
  exact congrArg Except.ok (List.take_of_length_le (by omega))

section

variable (htype : isAead p.type = true)

include htype

theorem derivedBytes_hkdf (hkdf : p.kdf = 1) (key : GoString) (n : Nat) :
    derivedBytes suite p key context n = .ok ((List.range n).map (suite.hkdfSHA256 key context)) := by
  rw [derivedBytes, if_neg (by omega), if_pos hkdf]
  cases hkt : p.type <;> simp_all [isAead]

theorem aead_supports : encryptionSupported p.type = true ∧ derivationSupported p.type = true := by
  cases hkt : p.type <;> simp_all [isAead, encryptionSupported, derivationSupported]

theorem getKey_found (hlookup : p.keys.lookup ver = some entry) (hpos : 0 < ver)
    (hle : ver ≤ p.latestVersion) (n : Nat) :
    getKey suite p context ver n =
      if p.derived then
        if context.isEmpty then
          .error (userError "missing 'context' for key derivation; the key was created using a derived key, which means additional, per-request information must be included in order to perform operations with the key")
        else derivedBytes suite p entry.key context n
      else .ok entry.key := by
  have hentry : safeGetKeyEntry p ver = .ok entry := by rw [safeGetKeyEntry, hlookup]
  have hkeys : (p.keys.entries.isEmpty || decide (p.latestVersion = 0)) = false := by
    have hmem : ver ∈ p.keys := AList.lookup_isSome.mp (by rw [hlookup]; rfl)
    have hne : p.keys.entries ≠ [] := by
      intro hnil
      rw [AList.mem_keys, AList.keys, hnil] at hmem
      cases hmem
    simp only [Bool.or_eq_false_iff, decide_eq_false_iff_not, List.isEmpty_eq_false_iff]
    exact ⟨hne, by omega⟩
  rw [getKey]
  cases hderived : p.derived with
  | false => simp [hentry]
  | true =>
    simp only [Bool.not_true, Bool.false_eq_true, if_false, if_true]
    rw [deriveKey, if_neg (by simp [(aead_supports htype).2]), if_neg (by simp [hkeys]),
      if_neg (by omega), hentry]

omit htype in
/-- The key of the cipher is not longer than what decryption asks for. -/
structure KeyFits (p : Policy) (ver : Int) : Prop where
  raw : p.derived = false → (p.entry ver).key.length = keyBytes p.type
  derived : p.derived = true → p.kdf = 1 ∨ p.type ≠ .aes128GCM96

theorem keyBytes_aead : keyBytes p.type = if p.type = .aes128GCM96 then 16 else 32 := by
  cases hkt : p.type <;> simp_all [isAead, keyBytes]

theorem decryptionKey_eq (hlookup : p.keys.lookup ver = some entry) (hpos : 0 < ver)
    (hle : ver ≤ p.latestVersion) {extra : Nat} {key : GoString}
    (hkey : getKey suite p context ver (keyBytes p.type + extra) = .ok key)
    (hlong : keyBytes p.type + extra ≤ key.length) :
    KeyFits p ver ∧ decryptionKey suite p context ver = .ok (key.take (keyBytes p.type)) ∨
      ¬ KeyFits p ver ∧ ∃ e, decryptionKey suite p context ver = .error e := by
  have hbytes := keyBytes_aead htype
  rw [getKey_found suite context htype hlookup hpos hle] at hkey
  -- what decryption gets, and whether it has the right size
  have hown : ∀ found, getKey suite p context ver (keyBytes p.type) = .ok found →
      (found.length = keyBytes p.type ↔ KeyFits p ver) →
      (KeyFits p ver → found = key.take (keyBytes p.type)) →
      KeyFits p ver ∧ decryptionKey suite p context ver = .ok (key.take (keyBytes p.type)) ∨
        ¬ KeyFits p ver ∧ ∃ e, decryptionKey suite p context ver = .error e := by
    intro found hfound hsize heq
    have hstep : decryptionKey suite p context ver =
        if found.length ≠ keyBytes p.type then
          .error (internalError "could not derive enc key, length not correct")
        else .ok found := by
      rw [decryptionKey, hfound]
      rfl
    by_cases hfits : KeyFits p ver
    · rw [hstep, if_neg (not_not.mpr (hsize.mpr hfits)), heq hfits]
      exact .inl ⟨hfits, rfl⟩
    · rw [hstep, if_pos (fun h => hfits (hsize.mp h))]
      exact .inr ⟨hfits, _, rfl⟩
  have hfound := getKey_found suite context htype hlookup hpos hle (keyBytes p.type)
  have hentry : p.entry ver = entry := by
    rw [Policy.entry, hlookup]
    rfl
  cases hderived : p.derived with
  | false =>
    rw [hderived] at hkey hfound
    cases hkey
    refine hown _ hfound ?_ fun hfits => ?_
    · constructor
      · intro hsize
        exact ⟨fun _ => by rw [hentry]; exact hsize, fun h => absurd (hderived.symm.trans h) (by decide)⟩
      · intro hfits
        rw [← hfits.raw hderived, hentry]
    · rw [List.take_of_length_le]
      rw [← hfits.raw hderived, hentry]
  | true =>
    rw [hderived, if_pos rfl] at hkey hfound
    cases hcontext : context.isEmpty with
    | true =>
      rw [hcontext] at hkey
      cases hkey
    | false =>
      rw [hcontext, if_neg Bool.false_ne_true] at hkey hfound
      have hraw : p.derived = false → (p.entry ver).key.length = keyBytes p.type :=
        fun h => absurd (hderived.symm.trans h) (by decide)
      by_cases hzero : p.kdf = 0
      · -- the counter mode gives 32 bytes whatever is asked for
        obtain ⟨out, hout, hlength⟩ := counterMode_length suite context entry.key
        rw [derivedBytes, if_pos hzero, hout] at hkey hfound
        cases hkey
        refine hown _ hfound ?_ fun hfits => ?_
        · rw [hlength, hbytes]
          constructor
          · intro hsize
            refine ⟨hraw, fun _ => .inr fun htype => ?_⟩
            rw [if_pos htype] at hsize
            cases hsize
          intro hfits
          rcases hfits.derived hderived with hone | hne
          · omega
          · rw [if_neg hne]
        · rcases hfits.derived hderived with hone | hne
          · omega
          · rw [List.take_of_length_le]
            rw [hlength, hbytes, if_neg hne]
      by_cases hone : p.kdf = 1
      · rw [derivedBytes_hkdf suite context htype hone] at hkey hfound
        cases hkey
        refine hown _ hfound ?_ fun _ => ?_
        · simp only [List.length_map, List.length_range, true_iff]
          exact ⟨hraw, fun _ => .inl hone⟩
        · rw [← List.map_take, List.take_range, Nat.min_eq_left (by omega)]
      · rw [derivedBytes, if_neg hzero, if_neg hone] at hkey
        cases hkey

end

theorem getKey_rotated (h : Rotated p q) (htype : isAead p.type = true)
    (hlookup : p.keys.lookup ver = some entry) (hdec : p.minDecryptionVersion ≤ ver)
    (hpos : 0 < ver) (hle : ver ≤ p.latestVersion) (n : Nat) :
    getKey suite q context ver n = getKey suite p context ver n := by
  rw [getKey_found suite context htype hlookup hpos hle,
    getKey_found suite context (by rw [h.type]; exact htype) ((h.keys ver hdec hle).trans hlookup)
      hpos (le_trans hle h.latest_le), h.derived, derivedBytes, derivedBytes, h.kdf, h.type]

end keys

section texts

variable {suite : CipherSuite} {p q : Policy} {opts : EncryptionOptions} {ver : Int}
  {entry : KeyEntry}

theorem encodeBase64_injective {suite : CipherSuite} {s t : GoString}
    (h : suite.encodeBase64 s = suite.encodeBase64 t) : s = t := by
  have hdecode := congrArg suite.decodeBase64 h
  rw [suite.decode_encode, suite.decode_encode] at hdecode
  cases hdecode
  rfl

theorem parseCiphertext_versionText (hpos : 0 < ver) (text : GoString) :
    parseCiphertext (versionText ver ++ text) = .ok (ver, text) := by
  have hstart : hasPrefix (versionText ver ++ text) (ofString "vault:v") = true := by
    rw [hasPrefix_iff, versionText, List.append_assoc, List.append_assoc]
    exact List.prefix_append _ _
  have htrim : trimPrefix (versionText ver ++ text) (ofString "vault:v") =
      itoa ver ++ 58 :: text := by
    rw [trimPrefix, if_pos hstart, versionText, List.append_assoc, List.append_assoc]
    exact List.drop_left
  simp only [parseCiphertext, hstart]
  rw [if_neg (by simp), htrim, cutByte_append (not_mem_itoa (by omega) (by decide))]
  simp only [atoi_itoa (show 0 ≤ ver by omega)]
  rw [if_neg (by omega)]

theorem convergentVersion_rotated (h : Rotated p q) (hlookup : q.keys.lookup ver = p.keys.lookup ver) :
    convergentVersion q ver = convergentVersion p ver := by
  rw [convergentVersion, convergentVersion, h.convergentEncryption, h.convergentVersion,
    Policy.entry, Policy.entry, hlookup]

theorem decryptWithOptions_rotated (h : Rotated p q) (htype : isAead p.type = true)
    (hlookup : p.keys.lookup ver = some entry) (hdec : p.minDecryptionVersion ≤ ver)
    (hpos : 0 < ver) (hle : ver ≤ p.latestVersion)
    (hnonce : ¬ (convergentVersion p ver = 1 ∧ opts.nonce.isEmpty = true)) (raw : GoString)
    (factories : List Factory) :
    decryptWithOptions suite q opts (versionText ver ++ suite.encodeBase64 raw) factories = (do
      let encKey ← decryptionKey suite p opts.context ver
      let data ← additionalData 0 [] factories
      let plain ← symmetricDecryptRaw suite p encKey raw
        { convergent := p.convergentEncryption, convergentVersion := p.convergentVersion,
          additionalData := data }
      pure (suite.encodeBase64 plain)) := by
  have hkey : decryptionKey suite q opts.context ver = decryptionKey suite p opts.context ver := by
    rw [decryptionKey, decryptionKey, getKey_rotated suite opts.context h htype hlookup hdec hpos hle,
      h.type]
  have hraw : ∀ encKey opts', symmetricDecryptRaw suite q encKey raw opts' =
      symmetricDecryptRaw suite p encKey raw opts' := by
    intro encKey opts'
    rw [symmetricDecryptRaw, symmetricDecryptRaw, h.type]
  have hsame := h.keys ver hdec hle
  rw [decryptWithOptions, h.type, if_neg (by simp [decryptionSupported, (aead_supports htype).1]),
    parseCiphertext_versionText hpos]
  show (if q.latestVersion < ver then _ else _) = _
  rw [if_neg (not_lt.mpr (le_trans hle h.latest_le)), h.minDecryption, if_neg (by omega),
    convergentVersion_rotated h hsame, if_neg hnonce, suite.decode_encode]
  show (if isAead p.type = true then _ else _ : Except CipherError GoString) = _
  rw [if_pos htype, hkey, h.convergentEncryption, h.convergentVersion]
  simp only [hraw]

end texts

section raw

variable {suite : CipherSuite} {p : Policy} {ver : Int} {plaintext nonce data : GoString}
  {source : Except GoError GoString}

/-- The nonce of an encryption has the right size; the convergent versions 1, 2 and 3 have one. -/
theorem encryptionNonce_ok {opts : SymmetricOpts}
    (h : encryptionNonce suite p ver plaintext opts source = .ok nonce) :
    nonce.length = nonceSize ∧
      (opts.convergent = true → convergentVersion p ver = 1 ∨ convergentVersion p ver = 2 ∨
        convergentVersion p ver = 3) ∧
      (opts.convergent = true → convergentVersion p ver = 1 → opts.nonce.isEmpty = false) := by
  simp only [encryptionNonce] at h
  split at h
  · split at h
    · rename_i hone
      split at h
      · cases h
      rename_i hsize
      cases h
      refine ⟨not_not.mp hsize, fun _ => .inl hone, fun _ _ => ?_⟩
      rw [List.isEmpty_eq_false_iff]
      intro hnil
      rw [hnil] at hsize
      exact hsize (by decide)
    rename_i hone
    split at h
    · rename_i htwo
      split at h
      · cases h
      cases h
      refine ⟨?_, fun _ => .inr htwo, fun _ heq => absurd heq hone⟩
      rw [List.length_take, suite.length_hmacSHA256]
      rfl
    · cases h
  rename_i hplain
  have hvacuous : ∀ {c : Prop}, opts.convergent = true → c := fun h => absurd h hplain
  split at h
  · cases source with
    | error e => cases h
    | ok bytes =>
      cases h
      exact ⟨by simp, hvacuous, hvacuous⟩
  split at h
  · cases h
  · rename_i hsize
    cases h
    exact ⟨not_not.mp hsize, hvacuous, hvacuous⟩

/-- What is encoded in a ciphertext: the nonce first, unless the convergent version is 1. -/
def rawCiphertext (p : Policy) (ver : Int) (aead : Aead) (encKey nonce plaintext data : GoString) :
    GoString :=
  if !p.convergentEncryption || 1 < convergentVersion p ver then
    nonce ++ aead.sealed encKey nonce plaintext data
  else aead.sealed encKey nonce plaintext data

/-- Decryption finds the nonce where encryption has put it. -/
structure NonceFound (p : Policy) (ver : Int) : Prop where
  policy_ne : p.convergentEncryption = true → p.convergentVersion ≠ 1
  key_ne : p.convergentEncryption = true → convergentVersion p ver ≠ 1

theorem authenticated_iff {result : Option GoString} :
    (match result with
      | none => throw (userError "message authentication failed")
      | some plain => pure plain : Except CipherError GoString) = .ok plaintext ↔
    result = some plaintext := by
  cases result with
  | none => exact iff_of_false (by simp) (by simp)
  | some plain =>
    show Except.ok plain = Except.ok plaintext ↔ _
    rw [Except.ok.injEq, Option.some.injEq]

theorem symmetricDecryptRaw_eq {aead : Aead} {encKey raw : GoString} {opts : SymmetricOpts}
    (hcipher : newCipher suite p.type encKey = .ok aead) :
    symmetricDecryptRaw suite p encKey raw opts = .ok plaintext ↔
      nonceSize ≤ raw.length ∧
        if opts.convergent = true ∧ opts.convergentVersion = 1 then
          aead.opened encKey [] raw opts.additionalData = some plaintext
        else aead.opened encKey (raw.take nonceSize) (raw.drop nonceSize) opts.additionalData =
          some plaintext := by
  rw [symmetricDecryptRaw, hcipher]
  show (if raw.length < nonceSize then _ else _ : Except CipherError GoString) = _ ↔ _
  by_cases hshort : raw.length < nonceSize
  · rw [if_pos hshort]
    exact iff_of_false (by simp) fun h => absurd hshort (not_lt.mpr h.1)
  rw [if_neg hshort]
  by_cases hfirst : opts.convergent = true ∧ opts.convergentVersion = 1
  · simp only [if_pos hfirst]
    exact ⟨fun h => ⟨not_lt.mp hshort, authenticated_iff.mp h⟩, fun h => authenticated_iff.mpr h.2⟩
  · simp only [if_neg hfirst]
    exact ⟨fun h => ⟨not_lt.mp hshort, authenticated_iff.mp h⟩, fun h => authenticated_iff.mpr h.2⟩

theorem symmetricDecryptRaw_iff {aead : Aead} {encKey : GoString}
    (hcipher : newCipher suite p.type encKey = .ok aead) (hnonce : nonce.length = nonceSize)
    (hversion : p.convergentEncryption = true → convergentVersion p ver = 1 ∨
      convergentVersion p ver = 2 ∨ convergentVersion p ver = 3) :
    symmetricDecryptRaw suite p encKey (rawCiphertext p ver aead encKey nonce plaintext data)
        { convergent := p.convergentEncryption, convergentVersion := p.convergentVersion,
          additionalData := data } = .ok plaintext ↔
      NonceFound p ver := by
  rw [symmetricDecryptRaw_eq hcipher]
  have hempty : aead.opened encKey [] (rawCiphertext p ver aead encKey nonce plaintext data) data =
      none := aead.opened_size _ _ _ _ (by decide)
  by_cases hfirst : p.convergentEncryption = true ∧ p.convergentVersion = 1
  · rw [if_pos hfirst, hempty]
    exact ⟨fun h => (nomatch h.2), fun h => absurd hfirst.2 (h.policy_ne hfirst.1)⟩
  rw [if_neg hfirst]
  have hpolicy : p.convergentEncryption = true → p.convergentVersion ≠ 1 :=
    fun hconv hone => hfirst ⟨hconv, hone⟩
  by_cases hone : p.convergentEncryption = true ∧ convergentVersion p ver = 1
  · -- without a nonce in front, the rest of the ciphertext is too short
    have hraw : rawCiphertext p ver aead encKey nonce plaintext data =
        aead.sealed encKey nonce plaintext data := by
      rw [rawCiphertext, if_neg]
      simp [hone.1, hone.2]
    rw [hraw]
    constructor
    · rintro ⟨hlength, hopened⟩
      rw [aead.opened_iff] at hopened
      · have hlengths := congrArg List.length hopened
        rw [List.length_drop, aead.length_sealed, aead.length_sealed] at hlengths
        rw [aead.length_sealed] at hlength
        simp only [nonceSize] at hlengths hlength
        omega
      · rw [List.length_take, Nat.min_eq_left hlength]
    · exact fun h => absurd hone.2 (h.key_ne hone.1)
  have hraw : rawCiphertext p ver aead encKey nonce plaintext data =
      nonce ++ aead.sealed encKey nonce plaintext data := by
    rw [rawCiphertext, if_pos]
    cases hconv : p.convergentEncryption with
    | false => rfl
    | true =>
      have hgreater : 1 < convergentVersion p ver := by
        rcases hversion hconv with h | h | h
        · exact absurd ⟨hconv, h⟩ hone
        · omega
        · omega
      simp [hgreater]
  rw [hraw, ← hnonce, List.take_left, List.drop_left,
    (aead.opened_iff encKey nonce _ data plaintext hnonce).mpr rfl]
  refine ⟨fun _ => ⟨hpolicy, fun hconv heq => hone ⟨hconv, heq⟩⟩, fun _ => ⟨?_, rfl⟩⟩
  rw [List.length_append]
  omega

end raw

section roundTrip

variable {suite : CipherSuite} {p : Policy} {opts : EncryptionOptions} {value text : GoString}
  {factories : List Factory} {source : Except GoError GoString}

theorem getSymmetricKeys_ok {encKey hmacKey : GoString}
    (h : getSymmetricKeys suite p opts = .ok (encKey, hmacKey)) :
    ∃ extra key, getKey suite p opts.context opts.keyVersion (keyBytes p.type + extra) = .ok key ∧
      keyBytes p.type + extra ≤ key.length ∧ encKey = key.take (keyBytes p.type) := by
  simp only [getSymmetricKeys] at h
  split at h
  · cases h
  split at h
  · cases h
  rename_i key hkey
  refine ⟨_, key, hkey, ?_⟩
  by_cases hshort : key.length <
      keyBytes p.type + if 2 < convergentVersion p opts.keyVersion then 32 else 0
  · rw [if_pos hshort] at h
    cases h
  refine ⟨not_lt.mp hshort, ?_⟩
  repeat' split at h
  all_goals cases h
  all_goals rfl

theorem encryptionVersion_ok {keyVersion ver : Int} (h : encryptionVersion p keyVersion = .ok ver) :
    ver ≤ p.latestVersion := by
  rw [encryptionVersion] at h
  repeat' split at h
  all_goals cases h
  · exact le_rfl
  · omega

theorem encryptWithOptions_ok (htype : isAead p.type = true)
    (h : encryptWithOptions suite p opts value factories source = .ok text) :
    ∃ plaintext ver extra key data nonce aead,
      suite.decodeBase64 value = .ok plaintext ∧ encryptionVersion p opts.keyVersion = .ok ver ∧
      getKey suite p opts.context ver (keyBytes p.type + extra) = .ok key ∧
      keyBytes p.type + extra ≤ key.length ∧ additionalData 0 [] factories = .ok data ∧
      newCipher suite p.type (key.take (keyBytes p.type)) = .ok aead ∧
      nonce.length = nonceSize ∧
      (p.convergentEncryption = true → convergentVersion p ver = 1 ∨ convergentVersion p ver = 2 ∨
        convergentVersion p ver = 3) ∧
      (p.convergentEncryption = true → convergentVersion p ver = 1 → opts.nonce.isEmpty = false) ∧
      text = versionText ver ++ suite.encodeBase64
        (rawCiphertext p ver aead (key.take (keyBytes p.type)) nonce plaintext data) := by
  rw [encryptWithOptions, if_neg (by simp [(aead_supports htype).1])] at h
  obtain ⟨plaintext, hdecoded, h⟩ := bind_eq_ok.mp h
  obtain ⟨ver, hversion, h⟩ := bind_eq_ok.mp h
  rw [if_pos htype] at h
  obtain ⟨⟨encKey, hmacKey⟩, hkeys, h⟩ := bind_eq_ok.mp h
  obtain ⟨data, hdata, h⟩ := bind_eq_ok.mp h
  obtain ⟨raw, hraw, h⟩ := bind_eq_ok.mp h
  cases h
  obtain ⟨extra, key, hkey, hlong, rfl⟩ := getSymmetricKeys_ok hkeys
  obtain ⟨aead, hcipher, hraw⟩ := bind_eq_ok.mp hraw
  obtain ⟨nonce, hnonce, hraw⟩ := bind_eq_ok.mp hraw
  obtain ⟨hsize, hconvergent, hgiven⟩ := encryptionNonce_ok hnonce
  have hdecoded' : suite.decodeBase64 value = .ok plaintext := by
    cases hvalue : suite.decodeBase64 value with
    | error e =>
      rw [hvalue] at hdecoded
      cases hdecoded
    | ok bytes =>
      rw [hvalue] at hdecoded
      cases hdecoded
      rfl
  refine ⟨plaintext, ver, extra, key, data, nonce, aead, hdecoded', hversion, hkey, hlong, hdata,
    hcipher, hsize, hconvergent, hgiven, ?_⟩
  rw [rawCiphertext]
  split at hraw
  · rename_i hfront
    cases hraw
    rw [if_pos hfront]
  · rename_i hfront
    cases hraw
    rw [if_neg hfront]

/-- A ciphertext of an aligned policy is decrypted to the plaintext, now or after any rotations, iff
decryption finds the nonce and asks for a key of the size that there is. -/
theorem decrypt_undoes_encrypt (formats : KeyFormats) {w : World} (hw : Ordered w)
    (htype : isAead w.memory.type = true)
    (hencrypt : encryptWithOptions suite w.memory opts value factories source = .ok text)
    {plaintext : GoString} (hplaintext : suite.decodeBase64 value = .ok plaintext) {ver : Int}
    (hversion : encryptionVersion w.memory opts.keyVersion = .ok ver)
    (hdec : w.memory.minDecryptionVersion ≤ ver) {envs : List (Nat → StepEnv)}
    (henvs : ∀ env ∈ envs, ∀ n, (env n).storageError = none) :
    decryptWithOptions suite (rotateAll formats w envs).memory opts text factories =
        .ok (suite.encodeBase64 plaintext) ↔
      NonceFound w.memory ver ∧ KeyFits w.memory ver := by
  have hrotated := rotateAll_rotated formats hw henvs
  obtain ⟨plaintext', ver', extra, key, data, nonce, aead, hplaintext', hversion', hkey, hlong, hdata,
    hcipher, hsize, hconvergent, hgiven, rfl⟩ := encryptWithOptions_ok htype hencrypt
  cases hplaintext.symm.trans hplaintext'
  cases hversion.symm.trans hversion'
  obtain ⟨archive, own, kept, -, haligned⟩ := hw
  have hone := haligned.one_le
  have hle := encryptionVersion_ok hversion
  obtain ⟨entry, -, hlookup⟩ := haligned.keys.inside ver hdec hle
  have hnonce : ¬ (convergentVersion w.memory ver = 1 ∧ opts.nonce.isEmpty = true) := by
    rintro ⟨hfirst, hempty⟩
    cases hconv : w.memory.convergentEncryption with
    | false =>
      rw [convergentVersion, hconv] at hfirst
      cases hfirst
    | true =>
      rw [hgiven hconv hfirst] at hempty
      cases hempty
  rw [decryptWithOptions_rotated hrotated htype hlookup hdec (by omega) hle hnonce]
  rcases decryptionKey_eq suite opts.context htype hlookup (by omega) hle hkey hlong with
    ⟨hfits, hown⟩ | ⟨hnot, e, hown⟩
  · rw [hown, hdata]
    show (symmetricDecryptRaw _ _ _ _ _ >>= fun plain => pure (suite.encodeBase64 plain)) = _ ↔ _
    rw [bind_eq_ok]
    constructor
    · rintro ⟨plain, hplain, hencoded⟩
      have heq := encodeBase64_injective (Except.ok.inj hencoded)
      subst heq
      exact ⟨(symmetricDecryptRaw_iff hcipher hsize hconvergent).mp hplain, hfits⟩
    · rintro ⟨hfound, -⟩
      exact ⟨plaintext, (symmetricDecryptRaw_iff hcipher hsize hconvergent).mpr hfound, rfl⟩
  · rw [hown]
    exact ⟨fun h => (nomatch h), fun h => absurd h.2 hnot⟩

end roundTrip

def plainAead : Aead where
  overhead := 0
  sealed := fun _ _ plaintext _ => plaintext
  opened := fun _ nonce ciphertext _ => if nonce.length = nonceSize then some ciphertext else none
  length_sealed := fun _ _ _ _ => rfl
  opened_iff := fun _ _ _ _ _ hsize => by rw [if_pos hsize, Option.some.injEq]
  opened_size := fun _ _ _ _ hsize => if_neg hsize

def plainSuite : CipherSuite where
  gcm := plainAead
  chaCha := plainAead
  encodeBase64 := id
  decodeBase64 := .ok
  decode_encode := fun _ => rfl
  hmacSHA256 := fun _ _ => List.replicate 32 1
  length_hmacSHA256 := fun _ _ => List.length_replicate
  hkdfSHA256 := fun _ _ _ => 2
  ed25519Key := id
  encryptOther := fun _ _ _ _ => .error (.unsupported "")
  decryptOther := fun _ _ _ _ => .error (.unsupported "")

def convergentKey (policyVersion keyVersion : Int) : World :=
  let entry : KeyEntry := { key := List.replicate 32 3, convergentVersion := keyVersion }
  { memory :=
      { keys := (∅ : KeyEntryMap).insert 1 entry, derived := true, kdf := 1,
        convergentEncryption := true, convergentVersion := policyVersion,
        minDecryptionVersion := 1, latestVersion := 1, archiveVersion := 1 },
    archive := some [{}, entry] }

theorem convergentKey_ordered (policyVersion keyVersion : Int) :
    Ordered (convergentKey policyVersion keyVersion) := by
  let entry : KeyEntry := { key := List.replicate 32 3, convergentVersion := keyVersion }
  refine ⟨_, fun _ => some entry, fun _ => some entry, rfl, le_rfl, le_rfl, le_rfl, zero_le_one, rfl,
    rfl, ⟨?_, ?_⟩, ?_⟩
  · intro v hlo hhi
    have hv : v = 1 := le_antisymm hhi hlo
    subst hv
    exact ⟨entry, rfl, rfl⟩
  · intro v hv
    have hne : v ≠ 1 := fun heq => hv (by rw [heq]; exact ⟨le_rfl, le_rfl⟩)
    exact AList.lookup_insert_ne hne
  intro v hlo hhi
  have hv : v = 1 := le_antisymm hhi hlo
  subst hv
  exact ⟨entry, rfl, rfl⟩

theorem third_version_decrypted :
    ∃ text, encryptWithOptions plainSuite (convergentKey (-1) 3).memory { context := [4] } [5, 6] []
        (.ok []) = .ok text ∧
      decryptWithOptions plainSuite
        (rotateAll noFormats (convergentKey (-1) 3) [fun _ => {}]).memory { context := [4] } text [] =
          .ok [5, 6] := by
  cases hencrypt : encryptWithOptions plainSuite (convergentKey (-1) 3).memory { context := [4] }
      [5, 6] [] (.ok []) with
  | error e =>
    have hok : (encryptWithOptions plainSuite (convergentKey (-1) 3).memory { context := [4] }
      [5, 6] [] (.ok [])).isOk = true := by decide +kernel
    rw [hencrypt] at hok
    cases hok
  | ok text =>
    refine ⟨text, rfl, ?_⟩
    have henvs : ∀ env ∈ [fun _ : Nat => ({} : StepEnv)], ∀ n, (env n).storageError = none := by
      simp
    have hversion : encryptionVersion (convergentKey (-1) 3).memory 0 = .ok 1 := rfl
    have hiff := decrypt_undoes_encrypt noFormats (convergentKey_ordered (-1) 3) rfl hencrypt rfl
      hversion le_rfl henvs
    exact hiff.mpr ⟨⟨fun _ => by decide, fun _ => by decide⟩,
      ⟨fun hraw => absurd hraw (by decide), fun _ => .inl rfl⟩⟩

/-- With convergent version 1 the nonce is asked for and then not used. -/
theorem first_version_not_decrypted :
    let opts : EncryptionOptions := { context := [4], nonce := List.replicate 12 7 }
    let p := (convergentKey 1 0).memory
    ((encryptWithOptions plainSuite p opts [5, 6] [] (.ok [])).toOption.map fun text =>
      (decryptWithOptions plainSuite p opts text []).isOk) = some false := by
  decide +kernel

end VaultProofs.CiphertextRoundTrip
