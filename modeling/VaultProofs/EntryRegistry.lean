import VaultProofs.KeyedMoves
import VaultProofs.ApprovalRuns

/-!
What storage holds about requests, as a table with one slot for each request ID: the parked entry
and the history record. `Move` lists what a call can do to a slot with reliable storage.
-/

namespace VaultProofs.EntryRegistry

open GoStrings JsonValues ApprovalEntries VaultEffects ApprovalInterceptor ApprovalHandlers
open ApprovalEffects ListingHandlers ApprovalRuns

structure Slot where
  entry : Option PendingRequest := none
  record : Option ApprovalHistoryEntry := none

abbrev Registry := String → Slot

def storedHistory (store : Store) (id : String) : Option ApprovalHistoryEntry :=
  (store.lookup (historyKey id)).bind (Blob.decode ApprovalHistoryEntry.decodeJSON)

def registry (store : Store) : Registry :=
  fun id => ⟨storedPending store id, storedHistory store id⟩

theorem registry_of_lookup_eq {store store' : Store}
    (hpending : ∀ id, store'.lookup (pendingKey id) = store.lookup (pendingKey id))
    (hhistory : ∀ id, store'.lookup (historyKey id) = store.lookup (historyKey id)) :
    registry store' = registry store := by
  funext id
  simp only [registry, storedPending, storedHistory, hpending, hhistory]

theorem eq_update_of_forall_ne {r r' : Registry} {id : String} {slot : Slot} (hid : r' id = slot)
    (hother : ∀ id', id' ≠ id → r' id' = r id') : r' = Function.update r id slot := by
  funext id'
  by_cases h : id' = id
  · subst h
    rw [hid, Function.update_self]
  · rw [hother id' h, Function.update_of_ne h]

theorem historyKey_ne {id id' : String} (h : id' ≠ id) : historyKey id' ≠ historyKey id := by
  intro hkey
  cases hkey
  exact h rfl

theorem historyKey_ne_pendingKey (id id' : String) : historyKey id ≠ pendingKey id' := nofun

variable (store : Store) (id : String)

theorem registry_insert_pending (value : Json) :
    registry (store.insert (pendingKey id) (.json value)) =
      Function.update (registry store) id
        ⟨PendingRequest.decodeJSON value, storedHistory store id⟩ := by
  refine eq_update_of_forall_ne ?_ ?_
  · simp only [registry, storedPending_insert_self, storedHistory,
      AList.lookup_insert_ne (historyKey_ne_pendingKey id id)]
  · intro id' hid
    simp only [registry, storedPending_insert_of_ne _ _ _ (pendingKey_ne (Ne.symm hid)),
      storedHistory, AList.lookup_insert_ne (historyKey_ne_pendingKey id' id)]

theorem registry_erase_pending :
    registry (store.erase (pendingKey id)) =
      Function.update (registry store) id ⟨none, storedHistory store id⟩ := by
  refine eq_update_of_forall_ne ?_ ?_
  · simp only [registry, storedPending_erase_self, storedHistory,
      AList.lookup_erase_ne (historyKey_ne_pendingKey id id)]
  · intro id' hid
    simp only [registry, storedPending_erase_of_ne _ _ (pendingKey_ne (Ne.symm hid)),
      storedHistory, AList.lookup_erase_ne (historyKey_ne_pendingKey id' id)]

theorem registry_insert_history (h : ApprovalHistoryEntry) :
    registry (store.insert (historyKey h.requestID) (.json h.marshalJSON)) =
      Function.update (registry store) h.requestID
        ⟨storedPending store h.requestID, some h.normalize⟩ := by
  refine eq_update_of_forall_ne ?_ ?_
  · simp only [registry, storedPending_insert_of_ne _ _ _ (historyKey_ne_pendingKey _ _),
      storedHistory, AList.lookup_insert, Option.bind_some, Blob.decode,
      ApprovalHistoryEntry.decodeJSON_marshalJSON]
  · intro id' hid
    simp only [registry, storedPending_insert_of_ne _ _ _ (historyKey_ne_pendingKey _ _),
      storedHistory, AList.lookup_insert_ne (historyKey_ne hid)]

theorem registry_erase_history :
    registry (store.erase (historyKey id)) =
      Function.update (registry store) id ⟨storedPending store id, none⟩ := by
  refine eq_update_of_forall_ne ?_ ?_
  · simp only [registry, storedPending_erase_of_ne _ _ (historyKey_ne_pendingKey _ _),
      storedHistory, AList.lookup_erase, Option.bind_none]
  · intro id' hid
    simp only [registry, storedPending_erase_of_ne _ _ (historyKey_ne_pendingKey _ _),
      storedHistory, AList.lookup_erase_ne (historyKey_ne hid)]

theorem registry_insert_config (ruleID : String) (blob : Blob) :
    registry (store.insert (configKey ruleID) blob) = registry store := by
  apply registry_of_lookup_eq
  · exact fun id => AList.lookup_insert_ne nofun
  · exact fun id => AList.lookup_insert_ne nofun

theorem registry_erase_config (ruleID : String) :
    registry (store.erase (configKey ruleID)) = registry store := by
  apply registry_of_lookup_eq
  · exact fun id => AList.lookup_erase_ne nofun
  · exact fun id => AList.lookup_erase_ne nofun

def Live (p : PendingRequest) : Prop :=
  p.status = .pending ∨ p.status = .approved

def Rivals (req : Request) (p : PendingRequest) : Prop :=
  p.requesterEntityID = req.entityID ∧ p.originalPath = req.path

/-- The test by which a call finds that the time limit of an entry has passed. Each
handler has its own. -/
def findsExpired (now : Time) (p : PendingRequest) : Call → Bool
  | .approve _ _ | .deny _ _ | .pendingRead _ _ | .approvable _ =>
    p.status = .pending && p.expiresAt < now
  | .fetch _ _ =>
    (p.status = .pending && p.expiresAt < now) ||
      (p.status = .approved && p.credentialData.isSome && p.approvedAt ≠ 0 &&
        approvalCredentialTTL < now - p.approvedAt)
  | .myRequests _ => outdated p now
  | .request _ _ _ =>
    (p.status = .pending && p.expiresAt ≤ now) ||
      (p.status = .approved && p.approvedAt ≠ 0 && approvalCredentialTTL ≤ now - p.approvedAt)
  | _ => false

def Covered (store : Store) (auth : Option (List String)) (req : Request) : Prop :=
  exemptPath req.path = false ∧ interceptedOperation req.operation = true ∧
    isRootAuth auth = false ∧
    ∃ ruleID rule, storedRule store ruleID = some rule ∧
      approvalRuleMatchesPath rule req.path = true

def MayRead (core : Core) (store : Store) (req : Request) (p : PendingRequest) : Prop :=
  callerIsRoot core req = true ∨
    (req.entityID ≠ "" ∧ req.entityID = p.requesterEntityID) ∨
    ∃ rule, storedRule store p.ruleID = some rule ∧
      approvalEntityIsAuthorized core req.entityID rule.authorizedApprovers = true

/-- The call looks at the entry `p` and removes it if it finds it expired, without a
history record. -/
def Clears (s : Step) (store : Store) (id : String) (p : PendingRequest) : Prop :=
  match s.call with
  | .approve _ id' => id' = id
  | .deny _ id' => id' = id
  | .pendingRead req id' => id' = id ∧ MayRead s.core store req p
  | .approvable req => callerIsRoot s.core req = true ∨ req.entityID ≠ ""
  | .myRequests req => req.entityID ≠ "" ∧ p.requesterEntityID = req.entityID
  | .request bypass auth req =>
    bypass = false ∧ Covered store auth req ∧ req.entityID ≠ "" ∧ Rivals req p
  | _ => False

/-- What the call of `s`, made on `store`, can put into the slot of one ID. -/
inductive Move (s : Step) (store : Store) (r : Registry) (id : String) : Slot → Prop where
  | park {bypass : Bool} {auth : Option (List String)} {req : Request} {rule : ApprovalRule}
      (call : s.call = .request bypass auth req) (uuid : s.env.uuid = .ok id)
      (alone : req.entityID ≠ "" →
        ∀ id' p, (r id').entry = some p → Rivals req p → ¬ Live p) :
      Move s store r id ⟨some (parkedRequest req rule id s.env.now).normalize, (r id).record⟩
  | vote {req : Request} {p q : PendingRequest} (call : s.call = .approve req id)
      (entry : (r id).entry = some p) (status : p.status = .pending)
      (live : s.env.now ≤ p.expiresAt) (written : VoteEntry s.env req p q) :
      Move s store r id ⟨some q.normalize, (r id).record⟩
  | deny {req : Request} {p : PendingRequest} {name : GoString} (call : s.call = .deny req id)
      (entry : (r id).entry = some p) (status : p.status = .pending)
      (live : s.env.now ≤ p.expiresAt) :
      Move s store r id ⟨some { p with status := .denied }.normalize,
        some (historyEntry p .denied s.env.now req.entityID name).normalize⟩
  | retrieve {req : Request} {p : PendingRequest} {by_ : String} {name : GoString}
      (call : s.call = .fetch req id) (entry : (r id).entry = some p)
      (status : p.status = .approved) (timely : findsExpired s.env.now p s.call = false) :
      Move s store r id ⟨none, some (historyEntry p .retrieved s.env.now by_ name).normalize⟩
  | expire {req : Request} {p : PendingRequest} {by_ : String} {name : GoString}
      (call : s.call = .fetch req id) (entry : (r id).entry = some p)
      (late : findsExpired s.env.now p s.call = true) :
      Move s store r id ⟨none, some (historyEntry p .expired s.env.now by_ name).normalize⟩
  | clear {p : PendingRequest} (entry : (r id).entry = some p)
      (late : findsExpired s.env.now p s.call = true) (clears : Clears s store id p) :
      Move s store r id ⟨none, (r id).record⟩
  | drop {p : PendingRequest} (entry : (r id).entry = some p)
      (timely : findsExpired s.env.now p s.call = false)
      (call : ∀ req id', s.call ≠ .fetch req id') :
      Move s store r id ⟨none, (r id).record⟩
  | purge {h : ApprovalHistoryEntry} (record : (r id).record = some h)
      (old : h.historyExpiresAt < s.env.now) :
      Move s store r id ⟨(r id).entry, none⟩

def FreshID (s : Step) (store : Store) : Prop :=
  ∀ bypass auth req id, s.call = .request bypass auth req → s.env.uuid = .ok id →
    storedPending store id = none ∧ storedHistory store id = none

theorem FreshID.uuid_ne {s : Step} {store : Store} (h : FreshID s store) {id : String}
    (hslot : (registry store id).entry.isSome = true ∨ (registry store id).record.isSome = true) :
    ∀ bypass auth req, s.call = .request bypass auth req → s.env.uuid ≠ .ok id := by
  intro bypass auth req hcall huuid
  obtain ⟨hentry, hrecord⟩ := h bypass auth req id hcall huuid
  simp [registry, hentry, hrecord] at hslot

end VaultProofs.EntryRegistry
