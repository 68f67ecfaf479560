import Mathlib.Logic.Function.Basic
import VaultProofs.ProgramOutcomes
import VaultProofs.VaultEffects

/-!
A physical store as a map from keys to values, its internal operations, which may be rejected
without effect, and the transactions of `GenericTransactionHandler`.
-/

namespace VaultProofs.PhysicalStores

open GoStrings EffectPrograms
open VaultEffects (GoError)

structure Entry where
  key : GoString
  value : GoString
  deriving DecidableEq

inductive StoreOperation where
  | delete
  | get
  | list
  | put
  deriving DecidableEq

structure TxnEntry where
  operation : StoreOperation
  entry : Entry
  deriving DecidableEq

abbrev Store := GoString → Option GoString

namespace Store

def get (s : Store) (key : GoString) : Option Entry :=
  (s key).map (Entry.mk key)

def put (s : Store) (entry : Entry) : Store :=
  Function.update s entry.key (some entry.value)

def delete (s : Store) (key : GoString) : Store :=
  Function.update s key none

theorem get_put (s : Store) (entry : Entry) : (s.put entry).get entry.key = some entry := by
  rw [get, put, Function.update_self]
  rfl

variable {key : GoString}

theorem get_put_ne (s : Store) {entry : Entry} (h : key ≠ entry.key) :
    (s.put entry).get key = s.get key := by
  rw [get, put, Function.update_of_ne h, get]

theorem get_delete_ne (s : Store) {key other : GoString} (h : other ≠ key) :
    (s.delete key).get other = s.get other := by
  rw [get, delete, Function.update_of_ne h, get]

theorem put_put (s : Store) {first second : Entry} (h : second.key = first.key) :
    (s.put first).put second = s.put second := by
  rw [put, put, put, h, Function.update_idem]

theorem put_delete (s : Store) (entry : Entry) : (s.delete entry.key).put entry = s.put entry :=
  Function.update_idem _ _ _

theorem delete_put (s : Store) (entry : Entry) : (s.put entry).delete entry.key = s.delete entry.key :=
  Function.update_idem _ _ _

theorem put_get {s : Store} {entry : Entry} (h : s.get key = some entry) :
    entry.key = key ∧ s.put entry = s := by
  obtain ⟨value, hvalue, rfl⟩ := Option.map_eq_some_iff.mp h
  refine ⟨rfl, ?_⟩
  rw [put, ← hvalue]
  exact Function.update_eq_self key s

theorem delete_absent {s : Store} (h : s.get key = none) : s.delete key = s := by
  have hnone : s key = none := Option.map_eq_none_iff.mp h
  rw [delete, ← hnone]
  exact Function.update_eq_self key s

end Store

def TxnEntry.filled (txn : TxnEntry) : Option Entry → TxnEntry
  | none => txn
  | some entry => { txn with entry := { txn.entry with value := entry.value } }

def TxnEntry.read (s : Store) (txn : TxnEntry) : TxnEntry :=
  if txn.operation = .get then txn.filled (s.get txn.entry.key) else txn

def TxnEntry.apply (s : Store) (txn : TxnEntry) : Store :=
  match txn.operation with
  | .put => s.put txn.entry
  | .delete => s.delete txn.entry.key
  | .get => s
  | .list => s

def applyAll (txns : List TxnEntry) (s : Store) : Store :=
  txns.foldl TxnEntry.apply s

theorem applyAll_cons (txn : TxnEntry) (txns : List TxnEntry) (s : Store) :
    applyAll (txn :: txns) s = applyAll txns (txn.apply s) := rfl

theorem TxnEntry.apply_read (s t : Store) (txn : TxnEntry) : (txn.read s).apply t = txn.apply t := by
  rw [read]
  by_cases hget : txn.operation = .get
  · rw [if_pos hget]
    cases s.get txn.entry.key with
    | none => rfl
    | some entry => simp only [apply, filled, hget]
  · rw [if_neg hget]

theorem applyAll_map_read (s t : Store) (txns : List TxnEntry) :
    applyAll (txns.map (TxnEntry.read s)) t = applyAll txns t := by
  induction txns generalizing t with
  | nil => rfl
  | cons txn txns ih => rw [List.map_cons, applyAll_cons, applyAll_cons, txn.apply_read, ih]

inductive StoreOp where
  | getInternal (key : GoString)
  | putInternal (entry : Entry)
  | deleteInternal (key : GoString)

abbrev StoreInterface : Interface where
  Op := StoreOp
  Answer
    | .getInternal _ => Except GoError (Option Entry)
    | .putInternal _ => Except GoError Unit
    | .deleteInternal _ => Except GoError Unit

abbrev StoreProg := Prog StoreInterface

def getInternal (key : GoString) : StoreProg (Except GoError (Option Entry)) :=
  Prog.perform (I := StoreInterface) (.getInternal key)

def putInternal (entry : Entry) : StoreProg (Except GoError Unit) :=
  Prog.perform (I := StoreInterface) (.putInternal entry)

def deleteInternal (key : GoString) : StoreProg (Except GoError Unit) :=
  Prog.perform (I := StoreInterface) (.deleteInternal key)

def exec (fault : Option GoError) (op : StoreOp) (s : Store) : StoreInterface.Answer op × Store :=
  match fault, op with
  | none, .getInternal key => (.ok (s.get key), s)
  | none, .putInternal entry => (.ok (), s.put entry)
  | none, .deleteInternal key => (.ok (), s.delete key)
  | some err, .getInternal _ => (.error err, s)
  | some err, .putInternal _ => (.error err, s)
  | some err, .deleteInternal _ => (.error err, s)

/-- The first loop: the values of the gets, before anything is written. -/
def fillGets : List TxnEntry → StoreProg (Option GoError × List TxnEntry)
  | [] => pure (none, [])
  | txn :: txns =>
    if txn.operation = .get then do
      let answer ← getInternal txn.entry.key
      match answer with
      | .error err => pure (some err, txn :: txns)
      | .ok found => do
          let (failed, rest) ← fillGets txns
          pure (failed, txn.filled found :: rest)
    else do
      let (failed, rest) ← fillGets txns
      pure (failed, txn :: rest)

/-- The second loop, with the stack of entries that undo what it has done, up to the first error. -/
def walkTxns : List TxnEntry → List TxnEntry → StoreProg (Option GoError × List TxnEntry)
  | [], rollbackStack => pure (none, rollbackStack)
  | txn :: txns, rollbackStack =>
    match txn.operation with
    | .delete => do
        let answer ← getInternal txn.entry.key
        match answer with
        | .error err => pure (some err, rollbackStack)
        | .ok none => walkTxns txns rollbackStack
        | .ok (some entry) => do
            let done ← deleteInternal txn.entry.key
            match done with
            | .error err => pure (some err, rollbackStack)
            | .ok _ => walkTxns txns (⟨.put, entry⟩ :: rollbackStack)
    | .put => do
        let answer ← getInternal txn.entry.key
        match answer with
        | .error err => pure (some err, rollbackStack)
        | .ok found => do
            let rollbackEntry : TxnEntry :=
              match found with
              | none => ⟨.delete, ⟨txn.entry.key, []⟩⟩
              | some entry => ⟨.put, entry⟩
            let done ← putInternal txn.entry
            match done with
            | .error err => pure (some err, rollbackStack)
            | .ok _ => walkTxns txns (rollbackEntry :: rollbackStack)
    | .get => walkTxns txns rollbackStack
    | .list => walkTxns txns rollbackStack

/-- The last loop, which goes on after an error. -/
def rollback : List TxnEntry → StoreProg (List GoError)
  | [] => pure []
  | txn :: txns =>
    match txn.operation with
    | .delete => do
        let done ← deleteInternal txn.entry.key
        let later ← rollback txns
        match done with
        | .error err => pure (err :: later)
        | .ok _ => pure later
    | .put => do
        let done ← putInternal txn.entry
        let later ← rollback txns
        match done with
        | .error err => pure (err :: later)
        | .ok _ => pure later
    | .get => rollback txns
    | .list => rollback txns

/-- The errors, none if the transaction is applied, and its entries with the values of the gets. -/
def genericTransactionHandler (txns : List TxnEntry) :
    StoreProg (List GoError × List TxnEntry) := do
  let (failed, txns) ← fillGets txns
  match failed with
  | some err => pure ([err], txns)
  | none => do
      let (failed, rollbackStack) ← walkTxns txns []
      match failed with
      | none => pure ([], txns)
      | some err => do
          let later ← rollback rollbackStack
          pure (err :: later, txns)

def getInTxnDisabledError : GoError :=
  .message (ofString "get operations inside transactions are disabled in inmem backend")

/-- The transaction of the in-memory backend, which can be told to refuse gets. -/
def transaction (failGetInTxn : Bool) (txns : List TxnEntry) :
    StoreProg (List GoError × List TxnEntry) :=
  if failGetInTxn && txns.any (fun txn => txn.operation = .get) then
    pure ([getInTxnDisabledError], txns)
  else genericTransactionHandler txns

end VaultProofs.PhysicalStores
