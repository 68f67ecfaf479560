import VaultProofs.IdentityStores

/-!
The memberships of external groups, brought in line with the group aliases that an auth method
returns at a login.
-/

namespace VaultProofs.ExternalGroups

open GoStrings GoMaps IdentityStores
open VaultEffects (GoError)

structure LoginAlias where
  mountAccessor : GoString
  name : GoString
  deriving DecidableEq

def isReadOnly : GoError → Bool
  | .message text => text = ofString "cannot write to readonly storage"
  | .wrapped _ cause => isReadOnly cause
  | .permissionDenied => false
  | .internal => false

def upsertOrForward (group : Group) : TxnM Unit :=
  tryCatch (do let _ ← upsertGroupInTxn true group)
    fun err => if isReadOnly err then outside else throw err

/-- Go through groups and write those that change; a dry run stops at the first and reports it. -/
def updateGroups (dryRun : Bool) (change : Group → Option Group) : List Group → TxnM Bool
  | [] => pure false
  | group :: groups =>
    match change group with
    | none => updateGroups dryRun change groups
    | some group =>
      if dryRun then pure true
      else do
        upsertOrForward group
        updateGroups dryRun change groups

def addMember (entityID : GoString) (group : Group) : Option Group :=
  if group.type = .external then
    some { group with memberEntityIDs := group.memberEntityIDs ++ [entityID] }
  else none

def fromOtherMount (mountAccessor : GoString) (group : Group) : Bool :=
  !mountAccessor.isEmpty && group.groupAlias.any (·.mountAccessor ≠ mountAccessor)

def removeMember (mountAccessor entityID : GoString) (group : Group) : Option Group :=
  if group.type = .external ∧ fromOtherMount mountAccessor group = false then
    some { group with memberEntityIDs := group.memberEntityIDs.erase entityID }
  else none

def mappingGroups (cfg : Config) (db : DB) :
    List LoginAlias → Except GoError (List Group × List LoginAlias)
  | [] => .ok ([], [])
  | row :: rows => do
      match ← memDBAliasByFactorsInTxn cfg db.groupAliases row.mountAccessor row.name with
      | none => mappingGroups cfg db rows
      | some aliasByFactors =>
        match ← memDBGroupByAliasIDInTxn db aliasByFactors.id with
        | none => .error (.message (ofString "group unavailable for a valid alias ID " ++
            cfg.quote aliasByFactors.id))
        | some mappingGroup => do
            let (newGroups, validAliases) ← mappingGroups cfg db rows
            pure (mappingGroup :: newGroups, row :: validAliases)

/-- One run over the groups: whether a dry run has found something to do, and the existing
aliases. -/
def refreshFunc (cfg : Config) (order : MapOrder Group) (entityID : GoString)
    (groupAliases : List LoginAlias) (mountAccessor : GoString) (dryRun : Bool) :
    TxnM (Bool × List LoginAlias) := do
  let db := (← get).db
  let oldGroups ← ExceptT.mk (pure (memDBGroupsByMemberEntityIDInTxn db entityID true))
  let (newGroups, validAliases) ← ExceptT.mk (pure (mappingGroups cfg db groupAliases))
  let diff := diffGroups order oldGroups newGroups
  if ← updateGroups dryRun (addMember entityID) diff.new then pure (true, [])
  else if ← updateGroups dryRun (removeMember mountAccessor entityID) diff.deleted then
    pure (true, [])
  else pure (false, validAliases)

def refreshExternalGroupMembershipsByEntityID (cfg : Config) (order order' : MapOrder Group)
    (answers : Nat → Option GoError) (db : DB) (entityID : GoString)
    (groupAliases : List LoginAlias) (mountAccessor : GoString) :
    Except GoError (List LoginAlias) × DB :=
  if entityID.isEmpty then (.error (.message (ofString "empty entity ID")), db)
  else
    let start : Txn := { committed := db, db := db, answers := answers }
    match ((refreshFunc cfg order entityID groupAliases mountAccessor true).run start).1 with
    | .error err => (.error err, db)
    | .ok (false, validAliases) => (.ok validAliases, db)
    | .ok (true, _) =>
      match (refreshFunc cfg order' entityID groupAliases mountAccessor false).run start with
      | (.error err, _) => (.error err, db)
      | (.ok (_, validAliases), txn) => (.ok validAliases, txn.db)

variable {txn txn' : Txn} {change : Group → Option Group} {groups : List Group}

theorem upsertOrForward_run {group : Group} (hrun : (upsertOrForward group).run txn = (.ok (), txn')) :
    txn.Follows txn' ∧
      txn'.db = txn.db.withGroup (txn.committed.groups.find group.id) group.placed := by
  rw [upsertOrForward, run_tryCatch, run_bind] at hrun
  by_cases hid : group.id = []
  · rw [upsertGroupInTxn_missing true hid] at hrun
    have hnot : isReadOnly (.message (ofString "missing group ID")) = false := by decide
    exact nomatch (Prod.mk.inj hrun).1
  obtain ⟨result, txn₁, hupsert, -, hfollows, hdb⟩ := upsertGroupInTxn_run true hid txn
  rw [hupsert] at hrun
  cases result with
  | ok value =>
    obtain rfl := (Prod.mk.inj hrun).2
    exact ⟨hfollows, hdb⟩
  | error err =>
    change (if isReadOnly err then outside else throw err).run txn₁ = _ at hrun
    split at hrun
    · rw [run_outside] at hrun
      obtain rfl := (Prod.mk.inj hrun).2
      exact ⟨hfollows, hdb⟩
    · exact nomatch (Prod.mk.inj hrun).1

theorem updateGroups_run {found : Bool}
    (hrun : (updateGroups false change groups).run txn = (.ok found, txn')) :
    found = false ∧ txn.Follows txn' ∧
      txn'.db = written txn.committed (groups.filterMap change) txn.db := by
  induction groups generalizing txn with
  | nil =>
    obtain ⟨hfound, rfl⟩ := Prod.mk.inj hrun
    exact ⟨(Except.ok.inj hfound).symm, ⟨rfl, rfl⟩, rfl⟩
  | cons group groups ih =>
    rw [updateGroups] at hrun
    cases hchange : change group with
    | none =>
      rw [List.filterMap_cons_none hchange]
      simp only [hchange] at hrun
      exact ih hrun
    | some result =>
      rw [List.filterMap_cons_some hchange, written_cons]
      simp only [hchange, Bool.false_eq_true, if_false, run_bind] at hrun
      generalize hwrite : (upsertOrForward result).run txn = outcome at hrun
      obtain ⟨_ | ⟨⟩, txn₁⟩ := outcome
      · exact nomatch (Prod.mk.inj hrun).1
      obtain ⟨hfollows, hdb⟩ := upsertOrForward_run hwrite
      obtain ⟨hfound, hfollows', hdb'⟩ := ih hrun
      refine ⟨hfound, ⟨hfollows'.1.trans hfollows.1, hfollows'.2.trans hfollows.2⟩, ?_⟩
      rw [hdb', hdb, hfollows.1]

theorem updateGroups_dry (change : Group → Option Group) (groups : List Group) (txn : Txn) :
    (updateGroups true change groups).run txn =
      (.ok (!(groups.filterMap change).isEmpty), txn) := by
  induction groups with
  | nil => rfl
  | cons group groups ih =>
    rw [updateGroups]
    cases hchange : change group with
    | none => rw [List.filterMap_cons_none hchange, ih]
    | some result =>
      rw [List.filterMap_cons_some hchange]
      rfl

variable {cfg : Config} {db db' : DB} {order order' : MapOrder Group} {answers : Nat → Option GoError}
variable {entityID mountAccessor : GoString} {groupAliases validAliases : List LoginAlias}

def memberships (db : DB) (entityID : GoString) : List Group :=
  db.groups.rows.filter fun group => entityID ∈ group.memberEntityIDs && !(group.type = .internal)

def changes (order : MapOrder Group) (entityID mountAccessor : GoString) (old new : List Group) :
    List Group :=
  (diffGroups order old new).new.filterMap (addMember entityID) ++
    (diffGroups order old new).deleted.filterMap (removeMember mountAccessor entityID)

theorem refreshFunc_run (dryRun : Bool) (hentity : entityID ≠ []) (txn : Txn) :
    (refreshFunc cfg order entityID groupAliases mountAccessor dryRun).run txn =
      match mappingGroups cfg txn.db groupAliases with
      | .error err => (.error err, txn)
      | .ok (newGroups, validAliases) =>
        (do
          let diff := diffGroups order (memberships txn.db entityID) newGroups
          if ← updateGroups dryRun (addMember entityID) diff.new then pure (true, [])
          else if ← updateGroups dryRun (removeMember mountAccessor entityID) diff.deleted then
            pure (true, [])
          else pure (false, validAliases) : TxnM (Bool × List LoginAlias)).run txn := by
  have hold : memDBGroupsByMemberEntityIDInTxn txn.db entityID true =
      .ok (memberships txn.db entityID) :=
    if_neg fun hempty => hentity (List.isEmpty_iff.mp hempty)
  have hget : (get : TxnM Txn).run txn = (.ok txn, txn) := rfl
  have hread : ∀ {α : Type} (result : Except GoError α),
      (ExceptT.mk (pure result) : TxnM α).run txn = (result, txn) := fun _ => rfl
  rw [refreshFunc, run_bind, hget]
  dsimp only
  rw [hold, run_bind, hread]
  dsimp only
  cases mappingGroups cfg txn.db groupAliases with
  | error err | ok mapped => rfl

theorem refreshFunc_dry {txn txn' : Txn} (hentity : entityID ≠ [])
    (hrun : (refreshFunc cfg order entityID groupAliases mountAccessor true).run txn =
      (.ok (false, validAliases), txn')) :
    ∃ newGroups valid, mappingGroups cfg txn.db groupAliases = .ok (newGroups, valid) ∧
      changes order entityID mountAccessor (memberships txn.db entityID) newGroups = [] := by
  rw [refreshFunc_run true hentity] at hrun
  cases hmap : mappingGroups cfg txn.db groupAliases with
  | error err =>
    rw [hmap] at hrun
    exact nomatch (Prod.mk.inj hrun).1
  | ok mapped =>
    obtain ⟨newGroups, valid⟩ := mapped
    refine ⟨newGroups, valid, rfl, ?_⟩
    rw [hmap] at hrun
    simp only [run_bind, updateGroups_dry] at hrun
    rw [changes, List.append_eq_nil_iff]
    cases hadded : (diffGroups order (memberships txn.db entityID) newGroups).new.filterMap
        (addMember entityID) with
    | cons group added =>
      rw [hadded] at hrun
      exact nomatch Except.ok.inj (Prod.mk.inj hrun).1
    | nil =>
      rw [hadded] at hrun
      simp only [List.isEmpty_nil, Bool.not_true, Bool.false_eq_true, if_false, run_bind,
        updateGroups_dry] at hrun
      cases hremoved : (diffGroups order (memberships txn.db entityID) newGroups).deleted.filterMap
          (removeMember mountAccessor entityID) with
      | cons group removed =>
        rw [hremoved] at hrun
        exact nomatch Except.ok.inj (Prod.mk.inj hrun).1
      | nil => exact ⟨rfl, rfl⟩

theorem refreshFunc_writes {found : Bool} {txn txn' : Txn} (hentity : entityID ≠ [])
    (hrun : (refreshFunc cfg order entityID groupAliases mountAccessor false).run txn =
      (.ok (found, validAliases), txn')) :
    ∃ newGroups valid, mappingGroups cfg txn.db groupAliases = .ok (newGroups, valid) ∧
      txn'.db = written txn.committed
        (changes order entityID mountAccessor (memberships txn.db entityID) newGroups) txn.db := by
  rw [refreshFunc_run false hentity] at hrun
  cases hmap : mappingGroups cfg txn.db groupAliases with
  | error err =>
    rw [hmap] at hrun
    exact nomatch (Prod.mk.inj hrun).1
  | ok mapped =>
    obtain ⟨newGroups, valid⟩ := mapped
    refine ⟨newGroups, valid, rfl, ?_⟩
    rw [hmap] at hrun
    simp only [run_bind] at hrun
    generalize hadd : (updateGroups false (addMember entityID) (diffGroups order
      (memberships txn.db entityID) newGroups).new).run txn = added at hrun
    obtain ⟨_ | found₁, txn₁⟩ := added
    · exact nomatch (Prod.mk.inj hrun).1
    obtain ⟨rfl, hfollows, hdb⟩ := updateGroups_run hadd
    simp only [Bool.false_eq_true, if_false, run_bind] at hrun
    generalize hremove : (updateGroups false (removeMember mountAccessor entityID)
      (diffGroups order (memberships txn.db entityID) newGroups).deleted).run txn₁ =
        removed at hrun
    obtain ⟨_ | found₂, txn₂⟩ := removed
    · exact nomatch (Prod.mk.inj hrun).1
    obtain ⟨rfl, -, hdb'⟩ := updateGroups_run hremove
    obtain rfl := (Prod.mk.inj hrun).2
    rw [hdb', hdb, hfollows.1, changes]
    exact List.foldl_append.symm

theorem refresh_written
    (hrun : refreshExternalGroupMembershipsByEntityID cfg order order' answers db entityID
      groupAliases mountAccessor = (.ok validAliases, db')) :
    ∃ used newGroups valid, mappingGroups cfg db groupAliases = .ok (newGroups, valid) ∧
      db' = written db (changes used entityID mountAccessor (memberships db entityID) newGroups)
        db := by
  rw [refreshExternalGroupMembershipsByEntityID] at hrun
  split at hrun
  · exact nomatch (Prod.mk.inj hrun).1
  next hempty =>
  have hentity : entityID ≠ [] := fun h => hempty (List.isEmpty_iff.mpr h)
  dsimp only at hrun
  split at hrun
  · exact nomatch (Prod.mk.inj hrun).1
  next valid hdry =>
    obtain ⟨newGroups, valid', hmap, hnone⟩ := refreshFunc_dry hentity (Prod.ext hdry rfl)
    obtain rfl := (Prod.mk.inj hrun).2
    exact ⟨order, newGroups, valid', hmap, hnone ▸ rfl⟩
  next =>
    split at hrun
    · exact nomatch (Prod.mk.inj hrun).1
    next hreal =>
      obtain ⟨newGroups, valid', hmap, hdb⟩ := refreshFunc_writes hentity hreal
      obtain rfl := (Prod.mk.inj hrun).2
      exact ⟨order', newGroups, valid', hmap, hdb⟩

end VaultProofs.ExternalGroups
