import VaultProofs.SharedCells
import VaultProofs.VaultEffects

/-!
The entry with one ID as a shared cell: how the operations of a call show on it.
-/

namespace VaultProofs.EntryCell

open ConcurrentPrograms SharedCells ApprovalEntries VaultEffects

def entryAccess (id : String) : VaultOp → Access
  | .storageGet key => if key = pendingKey id then .read else .none
  | .storagePut key _ => if key = pendingKey id then .write else .none
  | .storageDelete key => if key = pendingKey id then .write else .none
  | _ => .none

def entryMachine (id : String) : Machine vault Env World where
  exec := exec
  access := entryAccess id

def decodePending (blob : Option Blob) : Option PendingRequest :=
  blob.bind (Blob.decode PendingRequest.decodeJSON)

abbrev EntryEvent := Event (Option PendingRequest)

def entryEvent (id : String) : (op : VaultOp) → op.Answer → EntryEvent
  | .storageGet key, .ok blob =>
    if key = pendingKey id then .read (decodePending blob) else .quiet
  | .storagePut key value, .ok _ =>
    if key = pendingKey id then .write (PendingRequest.decodeJSON value) else .quiet
  | .storageDelete key, .ok _ => if key = pendingKey id then .write none else .quiet
  | .doRouting _, reply => .signal reply.err.isNone
  | _, _ => .quiet

def entryView (id : String) : CellView (entryMachine id) (Option PendingRequest) where
  cell w := storedPending w.store id
  signals w := w.routed.length
  event := entryEvent id

theorem entryEvent_exec (id : String) {env : Env} (henv : env.Reliable) (op : VaultOp) (w : World) :
    storedPending (exec env op w).2.store id =
      (entryEvent id op (exec env op w).1).cellAfter (storedPending w.store id) ∧
    (exec env op w).2.routed.length =
      (entryEvent id op (exec env op w).1).signalsAfter w.routed.length ∧
    (entryEvent id op (exec env op w).1).access = entryAccess id op ∧
    ∀ value, entryEvent id op (exec env op w).1 = .read value →
      value = storedPending w.store id := by
  have hquiet : ∀ value, (Event.quiet : EntryEvent) = .read value →
      value = storedPending w.store id := fun value h => by cases h
  cases op with
  | storageGet key =>
    rw [exec_storageGet henv]
    by_cases hkey : key = pendingKey id
    · subst hkey
      refine ⟨?_, ?_, ?_, ?_⟩
      · simp [entryEvent, Event.cellAfter, World.tick]
      · simp [entryEvent, Event.signalsAfter, World.tick]
      · simp [entryEvent, entryAccess, Event.access]
      · simp [entryEvent, storedPending, decodePending]
    · simp [entryEvent, entryAccess, hkey, Event.cellAfter, Event.signalsAfter, Event.access,
        World.tick]
  | storagePut key value =>
    rw [exec_storagePut henv]
    by_cases hkey : key = pendingKey id
    · subst hkey
      refine ⟨?_, ?_, ?_, ?_⟩
      · simp [entryEvent, Event.cellAfter, World.put, storedPending_insert_self]
      · simp [entryEvent, Event.signalsAfter, World.put, World.tick]
      · simp [entryEvent, entryAccess, Event.access]
      · simp [entryEvent]
    refine ⟨?_, ?_, ?_, ?_⟩
    · simp [entryEvent, hkey, Event.cellAfter, World.put, storedPending_insert_of_ne]
    · simp [entryEvent, hkey, Event.signalsAfter, World.put, World.tick]
    · simp [entryEvent, entryAccess, hkey, Event.access]
    · simp [entryEvent, hkey]
  | storageDelete key =>
    rw [exec_storageDelete henv]
    by_cases hkey : key = pendingKey id
    · subst hkey
      refine ⟨?_, ?_, ?_, ?_⟩
      · simp [entryEvent, Event.cellAfter, World.delete, storedPending_erase_self]
      · simp [entryEvent, Event.signalsAfter, World.delete, World.tick]
      · simp [entryEvent, entryAccess, Event.access]
      · simp [entryEvent]
    refine ⟨?_, ?_, ?_, ?_⟩
    · simp [entryEvent, hkey, Event.cellAfter, World.delete, storedPending_erase_of_ne]
    · simp [entryEvent, hkey, Event.signalsAfter, World.delete, World.tick]
    · simp [entryEvent, entryAccess, hkey, Event.access]
    · simp [entryEvent, hkey]
  | storageList folder =>
    rw [exec_storageList henv]
    exact ⟨rfl, rfl, rfl, hquiet⟩
  | timeNow | generateUUID => exact ⟨rfl, rfl, rfl, hquiet⟩
  | doRouting req =>
    refine ⟨rfl, ?_, rfl, fun value h => by cases h⟩
    simp [entryEvent, exec, Event.signalsAfter]
  | registerLease req resp =>
    refine ⟨?_, ?_, rfl, hquiet⟩
    · simp only [exec]
      split <;> rfl
    · simp only [exec]
      split <;> rfl

theorem entryView_faithful (id : String) {env : Env} (henv : env.Reliable) :
    (entryView id).Faithful env where
  cell_after op w := (entryEvent_exec id henv op w).1
  signals_after op w := (entryEvent_exec id henv op w).2.1
  access_eq op w := (entryEvent_exec id henv op w).2.2.1
  read_eq op w := (entryEvent_exec id henv op w).2.2.2

end VaultProofs.EntryCell
