import VaultProofs.RelationalPrograms
import VaultProofs.ListingFootprints

/-!
Stores that differ in the contents of credentials only, and the operations of a
call on two such stores.
-/

namespace VaultProofs.CredentialTwins

open JsonValues EffectPrograms RelationalPrograms ApprovalEntries VaultEffects EffectFootprints

/-- Which contents count as alike. Storage drops an empty map, so an empty credential is alike to
the empty one only. -/
structure Contents where
  Alike : GoMap → GoMap → Prop
  refl : ∀ data, Alike data data
  nil_iff : ∀ {data data'}, Alike data data' → (data = [] ↔ data' = [])
  normalize : ∀ {data data'}, Alike data data' →
    Alike (normalizeEntries data) (normalizeEntries data')

theorem map_fst_normalizeEntries (data : GoMap) :
    (normalizeEntries data).map Prod.fst = (data.map Prod.fst).map coerced := by
  induction data with
  | nil => rfl
  | cons entry rest ih => simp only [normalizeEntries, List.map_cons, ih, coerced]

def Contents.sameKeys : Contents where
  Alike data data' := data.map Prod.fst = data'.map Prod.fst
  refl _ := rfl
  nil_iff := by
    intro data data' h
    have hlength := congrArg List.length h
    simp only [List.length_map] at hlength
    rw [← List.length_eq_zero_iff, ← List.length_eq_zero_iff, hlength]
  normalize := by
    intro data data' h
    rw [map_fst_normalizeEntries, map_fst_normalizeEntries, h]

variable {C : Contents}

variable (C) in
/-- The second entry is the first one with other contents in its credential. -/
inductive Twins (p : PendingRequest) : PendingRequest → Prop where
  | mk {credential : Option GoMap} (alike : Option.Rel C.Alike p.credentialData credential) :
      Twins p { p with credentialData := credential }

variable (C) in
inductive BlobTwins : Blob → Blob → Prop where
  | same (blob : Blob) : BlobTwins blob blob
  | entry {blob blob' : Blob} {p p' : PendingRequest}
      (first : blob.decode PendingRequest.decodeJSON = some p)
      (second : blob'.decode PendingRequest.decodeJSON = some p') (twins : Twins C p p') :
      BlobTwins blob blob'

variable (C) in
/-- The stores differ in the contents of credentials under `pending/` only. -/
structure StoreTwins (store store' : Store) : Prop where
  keys : store'.keys = store.keys
  other : ∀ key : Key, key.folder ≠ .pending → store'.lookup key = store.lookup key
  pending : ∀ id, Option.Rel (BlobTwins C) (store.lookup (pendingKey id))
    (store'.lookup (pendingKey id))

variable (C) in
structure WorldTwins (w w' : World) : Prop where
  store : StoreTwins C w.store w'.store
  storageOps : w'.storageOps = w.storageOps
  routed : w'.routed = w.routed
  leases : w'.leases = w.leases

/-- Whether a write fails does not depend on what is written. -/
def BlindWrites (env : Env) : Prop :=
  ∀ n key value value', env.fails n (.storagePut key value) = env.fails n (.storagePut key value')

/-- The operations that show nothing of an entry under `pending/`. -/
def Blind : VaultOp → Prop
  | .storageGet key => key.folder ≠ .pending
  | _ => True

variable {store store' : Store}

theorem StoreTwins.insert (h : StoreTwins C store store') {blob blob' : Blob} (key : Key)
    (hsame : key.folder ≠ .pending → blob' = blob) (hblob : BlobTwins C blob blob') :
    StoreTwins C (store.insert key blob) (store'.insert key blob') where
  keys := by rw [AList.keys_insert, AList.keys_insert, h.keys]
  other key' hkey' := by
    by_cases hkey : key' = key
    · subst hkey
      rw [AList.lookup_insert, AList.lookup_insert, hsame hkey']
    · rw [AList.lookup_insert_ne hkey, AList.lookup_insert_ne hkey, h.other key' hkey']
  pending id := by
    by_cases hkey : pendingKey id = key
    · subst hkey
      rw [AList.lookup_insert, AList.lookup_insert]
      exact .some hblob
    · rw [AList.lookup_insert_ne hkey, AList.lookup_insert_ne hkey]
      exact h.pending id

theorem StoreTwins.erase (h : StoreTwins C store store') (key : Key) :
    StoreTwins C (store.erase key) (store'.erase key) where
  keys := by rw [AList.keys_erase, AList.keys_erase, h.keys]
  other key' hkey' := by
    by_cases hkey : key' = key
    · subst hkey
      rw [AList.lookup_erase, AList.lookup_erase]
    · rw [AList.lookup_erase_ne hkey, AList.lookup_erase_ne hkey, h.other key' hkey']
  pending id := by
    by_cases hkey : pendingKey id = key
    · subst hkey
      rw [AList.lookup_erase, AList.lookup_erase]
      exact .none
    · rw [AList.lookup_erase_ne hkey, AList.lookup_erase_ne hkey]
      exact h.pending id

theorem StoreTwins.folderNames (h : StoreTwins C store store') (folder : Folder) :
    folderNames store' folder = folderNames store folder := by
  unfold VaultEffects.folderNames
  rw [h.keys]

variable {env : Env} {w w' : World}

theorem WorldTwins.tick (h : WorldTwins C w w') : WorldTwins C w.tick w'.tick where
  store := h.store
  storageOps := congrArg (· + 1) h.storageOps
  routed := h.routed
  leases := h.leases

theorem WorldTwins.withStore (h : WorldTwins C w w') {store store' : Store}
    (hstore : StoreTwins C store store') :
    WorldTwins C { w.tick with store := store } { w'.tick with store := store' } where
  store := hstore
  storageOps := congrArg (· + 1) h.storageOps
  routed := h.routed
  leases := h.leases

theorem put_coupled (henv : BlindWrites env) (key : Key) {value value' : Json}
    (hsame : key.folder ≠ .pending → value' = value)
    (hblob : BlobTwins C (.json value) (.json value')) :
    Coupled (exec env) (WorldTwins C) Eq (storagePut key value) (storagePut key value') := by
  intro w w' hw
  unfold storagePut
  simp only [Prog.perform, Prog.run_call, Prog.run_ret, exec]
  rw [hw.storageOps, henv _ key value' value]
  cases env.fails w.storageOps (.storagePut key value) with
  | true => exact ⟨rfl, hw.tick⟩
  | false =>
    refine ⟨rfl, hw.withStore (hw.store.insert key ?_ hblob)⟩
    exact fun hkey => congrArg Blob.json (hsame hkey)

theorem blind_coupled (henv : BlindWrites env) (op : VaultOp) (hop : Blind op) :
    Coupled (exec env) (WorldTwins C) Eq (Prog.perform (I := vault) op)
      (Prog.perform (I := vault) op) := by
  intro w w' hw
  cases op with
  | storageGet key =>
    simp only [Prog.perform, Prog.run_call, Prog.run_ret, exec]
    rw [hw.storageOps, hw.store.other key hop]
    split <;> exact ⟨rfl, hw.tick⟩
  | storagePut key value => exact put_coupled henv key (fun _ => rfl) (.same _) w w' hw
  | storageDelete key =>
    simp only [Prog.perform, Prog.run_call, Prog.run_ret, exec]
    rw [hw.storageOps]
    split
    · exact ⟨rfl, hw.tick⟩
    · exact ⟨rfl, hw.withStore (hw.store.erase key)⟩
  | storageList folder =>
    simp only [Prog.perform, Prog.run_call, Prog.run_ret, exec]
    rw [hw.storageOps, hw.store.folderNames]
    split <;> exact ⟨rfl, hw.tick⟩
  | timeNow | generateUUID => exact ⟨rfl, hw⟩
  | doRouting req =>
    refine ⟨rfl, hw.store, hw.storageOps, ?_, hw.leases⟩
    exact congrArg (· ++ [(req, env.backend req)]) hw.routed
  | registerLease req resp =>
    simp only [Prog.perform, Prog.run_call, Prog.run_ret, exec]
    cases env.register req resp with
    | error e => exact ⟨trivial, hw⟩
    | ok leaseID =>
      refine ⟨trivial, hw.store, hw.storageOps, hw.routed, ?_⟩
      exact congrArg (· ++ [(req, resp, leaseID)]) hw.leases

theorem blind_of_outside {op : VaultOp} (h : Outside op) : Blind op := by
  cases op with
  | storageGet key => exact h
  | _ => trivial

theorem outside_coupled (henv : BlindWrites env) {α : Type} {p : VaultProg α}
    (hp : StaysOutside p) : Coupled (exec env) (WorldTwins C) Eq p p :=
  coupled_of_performs (fun op hop => blind_coupled henv op (blind_of_outside hop)) hp

variable {p p' : PendingRequest}

variable (C) in
/-- Entries in memory: if one can be encoded, so can the other. -/
structure Held (p p' : PendingRequest) : Prop where
  twins : Twins C p p'
  encodable : marshalMap p'.credentialData = none ↔ marshalMap p.credentialData = none

theorem optionRel_refl (credential : Option GoMap) : Option.Rel C.Alike credential credential := by
  cases credential with
  | none => exact .none
  | some data => exact .some (C.refl data)

theorem Held.refl (p : PendingRequest) : Held C p p :=
  ⟨.mk (optionRel_refl _), Iff.rfl⟩

theorem Held.map (h : Held C p p') {f : PendingRequest → PendingRequest}
    (hf : ∀ r c, f { r with credentialData := c } = { f r with credentialData := c })
    (hcredential : ∀ r, (f r).credentialData = r.credentialData) : Held C (f p) (f p') := by
  obtain ⟨@⟨credential, halike⟩, hencodable⟩ := h
  rw [hf p credential]
  refine ⟨.mk ?_, ?_⟩
  · rwa [hcredential]
  · rwa [hcredential]

theorem alike_storedCredential {credential credential' : Option GoMap}
    (h : Option.Rel C.Alike credential credential') :
    Option.Rel C.Alike (storedCredential credential) (storedCredential credential') := by
  cases h with
  | none => exact .none
  | @some data data' halike =>
    have hnil := C.nil_iff halike
    rcases data with _ | ⟨entry, rest⟩ <;> rcases data' with _ | ⟨entry', rest'⟩
    · exact .none
    · exact absurd (hnil.mp rfl) nofun
    · exact absurd (hnil.mpr rfl) nofun
    · exact .some (C.normalize halike)

theorem Twins.normalize (h : Twins C p p') : Twins C p.normalize p'.normalize := by
  cases h with
  | mk halike => exact .mk (alike_storedCredential halike)

theorem Held.marshalJSON_eq_none_iff (h : Held C p p') :
    p'.marshalJSON = none ↔ p.marshalJSON = none := by
  rw [PendingRequest.marshalJSON_eq_none_iff, PendingRequest.marshalJSON_eq_none_iff, h.encodable]
  cases h.twins with
  | mk _ => exact Iff.rfl

theorem storePendingRequest_coupled (henv : BlindWrites env) (h : Held C p p') :
    Coupled (exec env) (WorldTwins C) Eq (storePendingRequest p) (storePendingRequest p') := by
  have hid : p'.requestID = p.requestID := by
    cases h.twins
    rfl
  unfold storePendingRequest
  cases hvalue : p.marshalJSON with
  | none =>
    rw [h.marshalJSON_eq_none_iff.mpr hvalue]
    exact coupled_refl
  | some value =>
    cases hvalue' : p'.marshalJSON with
    | none => rw [h.marshalJSON_eq_none_iff.mp hvalue'] at hvalue; cases hvalue
    | some value' =>
      rw [hid]
      refine put_coupled henv _ (fun hkey => (hkey rfl).elim) ?_
      exact .entry (PendingRequest.decodeJSON_marshalJSON hvalue)
        (PendingRequest.decodeJSON_marshalJSON hvalue') h.twins.normalize

variable (C) in
inductive Found : Except GoError (Option PendingRequest) →
    Except GoError (Option PendingRequest) → Prop where
  | error (e : GoError) : Found (.error e) (.error e)
  | none : Found (.ok none) (.ok none)
  | some {p p' : PendingRequest} (held : Held C p p') : Found (.ok (some p)) (.ok (some p'))

theorem held_of_decode {blob blob' : Blob} (hp : blob.decode PendingRequest.decodeJSON = some p)
    (hp' : blob'.decode PendingRequest.decodeJSON = some p') (h : Twins C p p') :
    Held C p p' := by
  have hencodes : ∀ {blob : Blob} {p : PendingRequest},
      blob.decode PendingRequest.decodeJSON = some p → marshalMap p.credentialData ≠ none := by
    intro blob p hp
    cases blob with
    | garbage => cases hp
    | json value =>
      obtain ⟨data, hdata⟩ := (PendingRequest.marshalMap_of_decodeJSON hp).2
      rw [hdata]
      nofun
  exact ⟨h, iff_of_false (hencodes hp') (hencodes hp)⟩

theorem found_of_twins {blob blob' : Option Blob} (h : Option.Rel (BlobTwins C) blob blob') :
    Found C (decodeEntry PendingRequest.decodeJSON (.ok blob))
      (decodeEntry PendingRequest.decodeJSON (.ok blob')) := by
  cases h with
  | none => exact .none
  | @some blob blob' hblob =>
    cases hblob with
    | same =>
      simp only [decodeEntry]
      cases blob.decode PendingRequest.decodeJSON with
      | none => exact .error _
      | some p => exact .some (.refl p)
    | entry hp hp' htwins =>
      simp only [decodeEntry, hp, hp']
      exact .some (held_of_decode hp hp' htwins)

theorem getPendingRequest_coupled (id : String) :
    Coupled (exec env) (WorldTwins C) (Found C) (getPendingRequest id) (getPendingRequest id) := by
  intro w w' hw
  rw [run_getPendingRequest, run_getPendingRequest]
  simp only [exec]
  rw [hw.storageOps]
  split
  · exact ⟨.error _, hw.tick⟩
  · exact ⟨found_of_twins (hw.store.pending id), hw.tick⟩

end VaultProofs.CredentialTwins
