import VaultProofs.GoMaps
import VaultProofs.DepthFirst
import VaultProofs.KeyedLists
import VaultProofs.VaultEffects

/-!
The identity store: groups, entities and their aliases in tables of an in-memory database. A
transaction works on a copy of the tables while other reads see the committed ones; a write of a
group is also sent to storage, which may refuse.
-/

namespace VaultProofs.IdentityStores

open GoStrings GoMaps KeyedLists
open VaultEffects (GoError)

structure Alias where
  id : GoString
  canonicalID : GoString
  mountAccessor : GoString
  name : GoString
  mergedFromCanonicalIDs : List GoString := []
  namespaceID : GoString
  isLocal : Bool := false
  deriving DecidableEq

inductive GroupType where
  | internal
  | external
  deriving DecidableEq

structure Group where
  id : GoString
  name : GoString
  policies : List GoString := []
  parentGroupIDs : List GoString := []
  memberEntityIDs : List GoString := []
  modifyIndex : Nat := 0
  groupAlias : Option Alias := none
  type : GroupType
  namespaceID : GoString
  scimClientID : GoString := []
  deriving DecidableEq

structure Entity where
  id : GoString
  name : GoString
  namespaceID : GoString
  aliases : List Alias := []
  policies : List GoString := []
  mergedEntityIDs : List GoString := []
  mfaSecrets : List (GoString × GoString) := []
  deriving DecidableEq

structure DB where
  groups : Table Group.id := .empty
  groupAliases : Table Alias.id := .empty
  entities : Table Entity.id := .empty
  entityAliases : Table Alias.id := .empty

/-- How names are compared, and what texts and the cleaning of lists need. -/
structure Config where
  foldName : GoString → GoString
  quote : GoString → GoString
  trimSpace : GoString → GoString

/-- Names compared as they are, nothing to quote or trim. -/
def Config.plain : Config := ⟨id, id, id⟩

def rootNamespaceID : GoString := ofString "root"

def orRoot (namespaceID : GoString) : GoString :=
  if namespaceID.isEmpty then rootNamespaceID else namespaceID

/-- A write transaction: the committed tables, its own, and how the numbered calls to the outside
are answered. -/
structure Txn where
  committed : DB
  db : DB
  answers : Nat → Option GoError
  calls : Nat := 0

abbrev TxnM := ExceptT GoError (StateM Txn)

def outside : TxnM Unit :=
  ExceptT.mk fun txn =>
    let txn' := { txn with calls := txn.calls + 1 }
    match txn.answers txn.calls with
    | none => (.ok (), txn')
    | some err => (.error err, txn')

def update (f : DB → DB) : TxnM Unit :=
  modify fun txn => { txn with db := f txn.db }

section Reads

variable (cfg : Config) (db : DB)

def memDBGroupByIDInTxn (groupID : GoString) : Except GoError (Option Group) :=
  if groupID.isEmpty then .error (.message (ofString "missing group ID"))
  else .ok (db.groups.find groupID)

def memDBGroupsByMemberEntityIDInTxn (entityID : GoString) (externalOnly : Bool) :
    Except GoError (List Group) :=
  if entityID.isEmpty then .error (.message (ofString "missing entity ID"))
  else .ok (db.groups.rows.filter fun group =>
    entityID ∈ group.memberEntityIDs && !(externalOnly && group.type = .internal))

def memDBGroupsByParentGroupID (memberGroupID : GoString) : Except GoError (List Group) :=
  if memberGroupID.isEmpty then .error (.message (ofString "missing member group ID"))
  else .ok (db.groups.rows.filter (memberGroupID ∈ ·.parentGroupIDs))

def memDBAliasByIDInTxn (aliases : Table Alias.id) (aliasID : GoString) :
    Except GoError (Option Alias) :=
  if aliasID.isEmpty then .error (.message (ofString "missing alias ID"))
  else .ok (aliases.find aliasID)

def memDBAliasByFactorsInTxn (aliases : Table Alias.id) (mountAccessor aliasName : GoString) :
    Except GoError (Option Alias) :=
  if aliasName.isEmpty then .error (.message (ofString "missing alias name"))
  else if mountAccessor.isEmpty then .error (.message (ofString "missing mount accessor"))
  else .ok (aliases.rows.find? fun row =>
    row.mountAccessor = mountAccessor ∧ cfg.foldName row.name = cfg.foldName aliasName)

def memDBGroupByAliasIDInTxn (aliasID : GoString) : Except GoError (Option Group) := do
  match ← memDBAliasByIDInTxn db.groupAliases aliasID with
  | none => pure none
  | some row => memDBGroupByIDInTxn db row.canonicalID

end Reads

def memDBDeleteAliasByIDInTxn (aliasID : GoString) (aliases : Table Alias.id) : Table Alias.id :=
  if aliasID.isEmpty then aliases else aliases.erase aliasID

def Alias.placed (row : Alias) : Alias :=
  { row with namespaceID := orRoot row.namespaceID }

def Group.placed (group : Group) : Group :=
  { group with
    modifyIndex := group.modifyIndex + 1
    groupAlias := group.groupAlias.map Alias.placed
    namespaceID := orRoot group.namespaceID }

/-- The tables with a group written: the alias it had is replaced by the one it has. -/
def DB.withGroup (db : DB) (old : Option Group) (group : Group) : DB :=
  let cleared := match old.bind Group.groupAlias with
    | some row => memDBDeleteAliasByIDInTxn row.id db.groupAliases
    | none => db.groupAliases
  { db with
    groupAliases := match group.groupAlias with
      | some row => cleared.upsert row
      | none => cleared
    groups := db.groups.upsert group }

/-- Write a group in the transaction and, if told so, to storage; the caller's group changes too. -/
def upsertGroupInTxn (persist : Bool) (group : Group) : TxnM Group := do
  let group := group.placed
  let groupClone ← liftExcept (memDBGroupByIDInTxn (← get).committed group.id)
  update (·.withGroup groupClone group)
  if persist then outside
  pure group
where
  liftExcept {α : Type} (result : Except GoError α) : TxnM α := ExceptT.mk (pure result)

structure GroupDiff where
  new : List Group
  deleted : List Group
  unmodified : List Group

/-- The loop over the new groups; one that is found is taken out of the existing ones. -/
def diffLoop : List Group → List Group → List Group × List Group × List Group
  | existing, [] => ([], [], existing)
  | existing, group :: groups =>
    if existing.any (·.id = group.id) then
      let (new, unmodified, rest) := diffLoop (existing.filter (·.id ≠ group.id)) groups
      (new, group :: unmodified, rest)
    else
      let (new, unmodified, rest) := diffLoop existing groups
      (group :: new, unmodified, rest)

def diffGroups (order : MapOrder Group) (old new : List Group) : GroupDiff :=
  let existing := old.foldl (fun existing group => upsert Group.id group existing) []
  let (new, unmodified, rest) := diffLoop existing new
  { new, unmodified, deleted := order.arrange rest }

variable {α β : Type}

theorem run_bind (x : TxnM α) (f : α → TxnM β) (txn : Txn) :
    (x >>= f).run txn = match x.run txn with
      | (.ok value, txn') => (f value).run txn'
      | (.error err, txn') => (.error err, txn') := by
  show StateT.bind x.run (ExceptT.bindCont f) txn = _
  rw [StateT.bind]
  obtain ⟨result, txn'⟩ := x.run txn
  cases result with
  | ok value | error err => rfl

theorem run_outside (txn : Txn) :
    outside.run txn = (match txn.answers txn.calls with
      | none => .ok ()
      | some err => .error err, { txn with calls := txn.calls + 1 }) := by
  show (match txn.answers txn.calls with
    | none => _
    | some err => _) = _
  cases txn.answers txn.calls with
  | none | some err => rfl

theorem run_tryCatch (x : TxnM α) (handle : GoError → TxnM α) (txn : Txn) :
    (tryCatch x handle).run txn = match x.run txn with
      | (.ok value, txn') => (.ok value, txn')
      | (.error err, txn') => (handle err).run txn' := by
  rw [ExceptT.run_tryCatch]
  show StateT.bind x.run _ txn = _
  rw [StateT.bind]
  obtain ⟨result, txn'⟩ := x.run txn
  cases result with
  | ok value | error err => rfl

/-- The transactions agree in all but the tables and the number of calls. -/
def Txn.Follows (txn txn' : Txn) : Prop :=
  txn'.committed = txn.committed ∧ txn'.answers = txn.answers

variable {group : Group}

theorem upsertGroupInTxn_eq (persist : Bool) (hid : group.id ≠ []) (txn : Txn) :
    (upsertGroupInTxn persist group).run txn =
      (match if persist then txn.answers txn.calls else none with
        | none => .ok group.placed
        | some err => .error err,
      { txn with
        db := txn.db.withGroup (txn.committed.groups.find group.id) group.placed
        calls := if persist then txn.calls + 1 else txn.calls }) := by
  have hlookup : memDBGroupByIDInTxn txn.committed group.placed.id =
      .ok (txn.committed.groups.find group.id) :=
    if_neg fun hempty => hid (List.isEmpty_iff.mp hempty)
  have hget : (get : TxnM Txn).run txn = (.ok txn, txn) := rfl
  have hlift : (upsertGroupInTxn.liftExcept
      (memDBGroupByIDInTxn txn.committed group.placed.id)).run txn =
        (.ok (txn.committed.groups.find group.id), txn) := by
    rw [hlookup]
    rfl
  have hupdate : (update (·.withGroup (txn.committed.groups.find group.id) group.placed)).run txn =
      (.ok (), { txn with
        db := txn.db.withGroup (txn.committed.groups.find group.id) group.placed }) := rfl
  simp only [upsertGroupInTxn, run_bind, hget, hlift, hupdate]
  cases persist with
  | false => rfl
  | true =>
    simp only [if_true, run_bind, run_outside]
    cases txn.answers txn.calls with
    | none | some err => rfl

theorem upsertGroupInTxn_run (persist : Bool) (hid : group.id ≠ []) (txn : Txn) :
    ∃ result txn', (upsertGroupInTxn persist group).run txn = (result, txn') ∧
      (∀ value, result = .ok value → value = group.placed) ∧ txn.Follows txn' ∧
      txn'.db = txn.db.withGroup (txn.committed.groups.find group.id) group.placed := by
  rw [upsertGroupInTxn_eq persist hid]
  refine ⟨_, _, rfl, fun value hvalue => ?_, ⟨rfl, rfl⟩, rfl⟩
  split at hvalue
  · exact (Except.ok.inj hvalue).symm
  · exact nomatch hvalue

theorem upsertGroupInTxn_missing (persist : Bool) (hid : group.id = []) (txn : Txn) :
    (upsertGroupInTxn persist group).run txn =
      (.error (.message (ofString "missing group ID")), txn) := by
  have hget : (get : TxnM Txn).run txn = (.ok txn, txn) := rfl
  have hlookup : memDBGroupByIDInTxn txn.committed group.placed.id =
      .error (.message (ofString "missing group ID")) :=
    if_pos (List.isEmpty_iff.mpr hid)
  have hlift : (upsertGroupInTxn.liftExcept
      (memDBGroupByIDInTxn txn.committed group.placed.id)).run txn =
        (.error (.message (ofString "missing group ID")), txn) := by
    rw [hlookup]
    rfl
  simp only [upsertGroupInTxn, run_bind, hget, hlift]

def written (committed : DB) (groups : List Group) (db : DB) : DB :=
  groups.foldl (fun db group => db.withGroup (committed.groups.find group.id) group.placed) db

variable {committed db : DB} {groups : List Group} {id : GoString}

theorem find_withGroup (db : DB) (old : Option Group) (group : Group) (id : GoString) :
    (db.withGroup old group).groups.find id =
      if group.id = id then some group else db.groups.find id :=
  Table.find_upsert db.groups group id

theorem written_cons (committed : DB) (group : Group) (groups : List Group) (db : DB) :
    written committed (group :: groups) db = written committed groups
      (db.withGroup (committed.groups.find group.id) group.placed) := rfl

theorem find_written_of_not_mem (h : ∀ group ∈ groups, group.id ≠ id) :
    (written committed groups db).groups.find id = db.groups.find id := by
  induction groups generalizing db with
  | nil => rfl
  | cons first groups ih =>
    obtain ⟨hfirst, hlater⟩ := List.forall_mem_cons.mp h
    rw [written_cons, ih hlater, find_withGroup, if_neg]
    exact hfirst

theorem find_written_of_mem (hmem : group ∈ groups)
    (hsame : ∀ other ∈ groups, other.id = group.id → other = group) :
    (written committed groups db).groups.find group.id = some group.placed := by
  induction groups generalizing db with
  | nil => exact nomatch hmem
  | cons first groups ih =>
    obtain ⟨hfirst, hlater⟩ := List.forall_mem_cons.mp hsame
    rw [written_cons]
    by_cases hin : group ∈ groups
    · exact ih hin hlater
    rcases List.mem_cons.mp hmem with rfl | hin'
    · rw [find_written_of_not_mem, find_withGroup, if_pos]
      · rfl
      · intro other hother heq
        exact hin (hlater other hother heq ▸ hother)
    · exact absurd hin' hin

/-- If what is written is what some change makes of the groups it changes, the table has every group
changed. -/
theorem find_written_of_change {change : Group → Option Group}
    (hid : ∀ group result, change group = some result → result.id = group.id)
    (hmem : ∀ result, result ∈ groups ↔ ∃ group ∈ db.groups.rows, change group = some result)
    (id : GoString) :
    (written committed groups db).groups.find id =
      (db.groups.find id).map fun group => ((change group).map Group.placed).getD group := by
  cases hfind : db.groups.find id with
  | none =>
    rw [find_written_of_not_mem, hfind]
    · rfl
    intro result hresult heq
    obtain ⟨group, hgroup, hchange⟩ := (hmem result).mp hresult
    rw [← heq, hid group result hchange, Table.find_key_iff.mpr hgroup] at hfind
    exact nomatch hfind
  | some group =>
    obtain ⟨hgroup, rfl⟩ := Table.find_eq_some_iff.mp hfind
    have honly : ∀ result ∈ groups, result.id = group.id → change group = some result := by
      intro result hresult heq
      obtain ⟨other, hother, hchange⟩ := (hmem result).mp hresult
      rw [hid other result hchange] at heq
      rwa [← Table.eq_of_key hother hgroup heq]
    cases hchange : change group with
    | none =>
      rw [find_written_of_not_mem, hfind]
      · simp [hchange]
      · intro result hresult heq
        exact nomatch hchange.symm.trans (honly result hresult heq)
    | some result =>
      have hresult : result ∈ groups := (hmem result).mpr ⟨group, hgroup, hchange⟩
      rw [← hid group result hchange, find_written_of_mem hresult]
      · simp [hchange]
      · intro other hother heq
        rw [hid group result hchange] at heq
        exact Option.some.inj ((honly other hother heq).symm.trans hchange)

theorem foldl_upsert_eq {existing groups : List Group}
    (h : ((existing ++ groups).map Group.id).Nodup) :
    groups.foldl (fun existing group => upsert Group.id group existing) existing =
      existing ++ groups := by
  induction groups generalizing existing with
  | nil => simp
  | cons group groups ih =>
    have hnew : ∀ other ∈ existing, other.id ≠ group.id := by
      intro other hother heq
      rw [List.map_append, List.nodup_append] at h
      exact h.2.2 other.id (List.mem_map_of_mem hother) group.id
        (List.mem_map_of_mem (.head _)) heq
    have hupsert : upsert Group.id group existing = existing ++ [group] := by
      rw [upsert, List.findIdx?_eq_none_iff.mpr (by simpa using hnew)]
    rw [List.foldl_cons, hupsert, ih (by simpa using h), List.append_assoc,
      List.singleton_append]

section

variable (existing groups : List Group)

theorem diffLoop_rest :
    (diffLoop existing groups).2.2 = existing.filter fun group => group.id ∉ groups.map Group.id := by
  induction groups generalizing existing with
  | nil => simp [diffLoop]
  | cons group groups ih =>
    rw [diffLoop]
    by_cases hany : existing.any (·.id = group.id) = true
    · rw [if_pos hany]
      rw [ih, List.filter_filter]
      refine List.filter_congr fun other _ => ?_
      rw [Bool.eq_iff_iff]
      simp [and_comm]
    rw [if_neg hany]
    rw [ih]
    refine List.filter_congr fun other hother => ?_
    have hne : other.id ≠ group.id := fun heq => hany (List.any_eq_true.mpr ⟨other, hother, by simpa using heq⟩)
    simp [hne]

theorem diffLoop_sublists :
    (diffLoop existing groups).1.Sublist groups ∧
      (diffLoop existing groups).2.1.Sublist groups := by
  induction groups generalizing existing with
  | nil => exact ⟨List.Sublist.refl _, List.Sublist.refl _⟩
  | cons group groups ih =>
    rw [diffLoop]
    split
    · exact ⟨(ih _).1.cons _, (ih _).2.cons_cons _⟩
    · exact ⟨(ih _).1.cons_cons _, (ih _).2.cons _⟩

theorem mem_ids_filter_ne {existing : List Group} {id gone : GoString} (h : id ≠ gone) :
    id ∈ (existing.filter (·.id ≠ gone)).map Group.id ↔ id ∈ existing.map Group.id := by
  simp only [List.mem_map, List.mem_filter]
  constructor
  · rintro ⟨other, ⟨hother, -⟩, rfl⟩
    exact ⟨other, hother, rfl⟩
  · rintro ⟨other, hother, rfl⟩
    exact ⟨other, ⟨hother, by simpa using h⟩, rfl⟩

/-- A group is new if it is not there, or is named again: the first time it is taken out of the
existing ones. -/
theorem diffLoop_new (id : GoString) :
    id ∈ (diffLoop existing groups).1.map Group.id ↔
      (id ∉ existing.map Group.id ∧ id ∈ groups.map Group.id) ∨
        2 ≤ groups.countP (·.id = id) := by
  induction groups generalizing existing with
  | nil => simp [diffLoop]
  | cons group groups ih =>
    have hcount : id ∈ groups.map Group.id ↔ 1 ≤ groups.countP (·.id = id) := by
      simp
    rw [diffLoop, List.countP_cons]
    by_cases hany : existing.any (·.id = group.id) = true
    · rw [if_pos hany]
      rw [ih]
      have hthere : group.id ∈ existing.map Group.id := by simpa using hany
      by_cases hid : group.id = id
      · subst hid
        have hgone : group.id ∉ (existing.filter (·.id ≠ group.id)).map Group.id := by simp
        simp only [hthere, hgone, not_true_eq_false, not_false_eq_true, false_and, true_and,
          false_or, hcount, decide_true, if_true]
        omega
      · rw [mem_ids_filter_ne (Ne.symm hid)]
        simp [hid, Ne.symm hid]
    rw [if_neg hany]
    have hthere : group.id ∉ existing.map Group.id := by simpa using hany
    rw [List.map_cons, List.mem_cons, ih]
    by_cases hid : group.id = id
    · subst hid
      simp [hthere]
    · simp [hid, Ne.symm hid]

theorem diffLoop_unmodified (id : GoString) :
    id ∈ (diffLoop existing groups).2.1.map Group.id ↔
      id ∈ existing.map Group.id ∧ id ∈ groups.map Group.id := by
  induction groups generalizing existing with
  | nil => simp [diffLoop]
  | cons group groups ih =>
    rw [diffLoop]
    by_cases hany : existing.any (·.id = group.id) = true
    · rw [if_pos hany]
      have hthere : group.id ∈ existing.map Group.id := by simpa using hany
      rw [List.map_cons, List.mem_cons, ih]
      by_cases hid : id = group.id
      · subst hid
        simp [hthere]
      · rw [mem_ids_filter_ne hid]
        simp [hid]
    rw [if_neg hany]
    have hthere : group.id ∉ existing.map Group.id := by simpa using hany
    rw [ih]
    by_cases hid : id = group.id
    · subst hid
      simp [hthere]
    · simp [hid]

end

variable {old new : List Group} {order : MapOrder Group}

theorem diffGroups_eq (order : MapOrder Group) (new : List Group)
    (hold : (old.map Group.id).Nodup) :
    diffGroups order old new =
      { new := (diffLoop old new).1
        unmodified := (diffLoop old new).2.1
        deleted := order.arrange (diffLoop old new).2.2 } := by
  have hexisting : old.foldl (fun existing group => upsert Group.id group existing) [] = old :=
    foldl_upsert_eq hold
  simp only [diffGroups, hexisting]

theorem mem_deleted_iff (hold : (old.map Group.id).Nodup) {group : Group} :
    group ∈ (diffGroups order old new).deleted ↔ group ∈ old ∧ group.id ∉ new.map Group.id := by
  rw [diffGroups_eq order new hold]
  rw [(order.perm _).mem_iff, diffLoop_rest, List.mem_filter, decide_eq_true_iff]

end VaultProofs.IdentityStores
