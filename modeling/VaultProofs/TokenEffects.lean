import VaultProofs.ProgramOutcomes
import VaultProofs.VaultEffects

/-!
What the token store works on: the entries under their salted IDs, the parent and accessor indexes,
the leases of tokens, the cubbyholes, the tokens being deleted and the token locks. `exec` gives the
operations their meaning; the environment of a step decides the clock and whether it fails.
-/

namespace VaultProofs.TokenEffects

open GoStrings JsonValues EffectPrograms ProgramOutcomes VaultEffects

inductive TokenType where
  | default
  | service
  | batch
  | defaultService
  | defaultBatch
  | ent
  deriving DecidableEq

/-- The salted form of an ID. Salting is a keyed hash: it tells IDs apart, and its results are no
IDs. -/
structure SaltedID where
  id : GoString
  deriving DecidableEq

def rootNamespaceID : GoString := ofString "root"

def isServiceToken (token : GoString) : Bool :=
  hasPrefix token (ofString "hvs.") || hasPrefix token (ofString "s.")

def tokenRevocationPending : Int := -1

/-- A stored token. The root namespace is the only one, `create` gives every service token a
cubbyhole ID, and no lease and no role is registered for a path with parent references. -/
structure TokenEntry where
  type : TokenType := .service
  id : GoString
  accessor : GoString := []
  parent : GoString := []
  policies : List GoString := []
  path : GoString := []
  displayName : GoString := []
  numUses : Int := 0
  creationTime : Int := 0
  ttl : Duration := 0
  explicitMaxTTL : Duration := 0
  displayNameDeprecated : GoString := []
  numUsesDeprecated : Int := 0
  creationTimeDeprecated : Int := 0
  explicitMaxTTLDeprecated : Duration := 0
  namespaceID : GoString := rootNamespaceID
  cubbyholeID : GoString := []
  id_ne_nil : id ≠ []
  namespace_root : namespaceID = [] ∨ namespaceID = rootNamespaceID
  cubbyhole_ne_nil : isServiceToken id = true → cubbyholeID ≠ []
  path_clean : containsText path (ofString "..") = false
  deriving DecidableEq

theorem rootNamespaceID_root : rootNamespaceID = [] ∨ rootNamespaceID = rootNamespaceID :=
  .inr rfl

theorem createPath_clean : containsText (ofString "auth/token/create") (ofString "..") = false := by
  decide

def TokenEntry.saltedID (entry : TokenEntry) : SaltedID := ⟨entry.id⟩

def TokenEntry.isRoot (entry : TokenEntry) : Bool :=
  entry.policies == [ofString "root"]

structure TokenTable where
  find : SaltedID → Option TokenEntry
  keyed : ∀ key entry, find key = some entry → key = entry.saltedID

namespace TokenTable

def empty : TokenTable where
  find _ := none
  keyed _ _ h := by cases h

def put (table : TokenTable) (entry : TokenEntry) : TokenTable where
  find := Function.update table.find entry.saltedID (some entry)
  keyed := by
    intro key found hfound
    by_cases hkey : key = entry.saltedID
    · subst hkey
      rw [Function.update_self] at hfound
      cases hfound
      rfl
    · rw [Function.update_of_ne hkey] at hfound
      exact table.keyed key found hfound

def delete (table : TokenTable) (key : SaltedID) : TokenTable where
  find := Function.update table.find key none
  keyed := by
    intro key' found hfound
    by_cases hkey : key' = key
    · subst hkey
      rw [Function.update_self] at hfound
      cases hfound
    · rw [Function.update_of_ne hkey] at hfound
      exact table.keyed key' found hfound

@[simp] theorem find_put_self (table : TokenTable) (entry : TokenEntry) :
    (table.put entry).find entry.saltedID = some entry :=
  Function.update_self ..

theorem find_put_of_ne (table : TokenTable) {entry : TokenEntry} {key : SaltedID}
    (hkey : key ≠ entry.saltedID) : (table.put entry).find key = table.find key :=
  Function.update_of_ne hkey ..

@[simp] theorem find_delete_self (table : TokenTable) (key : SaltedID) :
    (table.delete key).find key = none :=
  Function.update_self ..

theorem find_delete_of_ne (table : TokenTable) {key key' : SaltedID} (hkey : key' ≠ key) :
    (table.delete key).find key' = table.find key' :=
  Function.update_of_ne hkey ..

end TokenTable

/-- A key of the `parent` view: a child below its parent, or a name on the top level, where nothing
is written. -/
inductive IndexPath where
  | below (parent child : SaltedID)
  | top (name : SaltedID)
  deriving DecidableEq

/-- The value of an accessor entry: a record, or in old stores the plain token ID. -/
inductive AccessorRecord where
  | entry (tokenID accessorID namespaceID : GoString)
  | plain (tokenID : GoString)
  deriving DecidableEq

structure LeaseID where
  path : GoString
  token : SaltedID
  deriving DecidableEq

structure Lease where
  clientToken : GoString
  expireTime : Time
  deriving DecidableEq

/-- The first segment of a cubbyhole path: a salted token ID, salted once more, or
the cubbyhole ID of the token. -/
inductive CubbyholeKey where
  | salted (token : SaltedID)
  | plain (cubbyholeID : GoString)
  deriving DecidableEq

structure CubbyholeItem where
  key : CubbyholeKey
  path : GoString
  value : GoString
  deriving DecidableEq

inductive PendingKey where
  | salted (token : SaltedID)
  | plain (id : GoString)
  deriving DecidableEq

inductive TokenOp where
  | namespaceByID (nsID : GoString)
  | saltID (id : GoString)
  | getEntry (key : SaltedID)
  | putEntry (entry : TokenEntry)
  | deleteEntry (key : SaltedID)
  | putIndex (parent child : SaltedID)
  | deleteIndex (path : IndexPath)
  | listChildren (parent : SaltedID)
  | listParents
  | getAccessor (key : SaltedID)
  | putAccessor (key : SaltedID) (record : AccessorRecord)
  | deleteAccessor (key : SaltedID)
  | listAccessors
  | loadLease (leaseID : LeaseID)
  | putLease (leaseID : LeaseID) (lease : Lease)
  | deleteLease (leaseID : LeaseID)
  | revokeLeases (token : SaltedID)
  | listCubbyholes
  | writeCubbyhole (item : CubbyholeItem)
  | clearCubbyhole (key : CubbyholeKey)
  | loadOrStorePending (key : PendingKey)
  | storePending (key : PendingKey) (value : Bool)
  | deletePending (key : PendingKey)
  | lock (id : GoString)
  | unlock (id : GoString)
  | rLock (id : GoString)
  | rUnlock (id : GoString)
  | timeNow
  deriving DecidableEq

@[reducible] def TokenOp.Result : TokenOp → Type
  | .saltID _ => SaltedID
  | .getEntry _ => Option TokenEntry
  | .listChildren _ => List SaltedID
  | .listParents => List SaltedID
  | .getAccessor _ => Option AccessorRecord
  | .listAccessors => List SaltedID
  | .loadLease _ => Option Lease
  | .listCubbyholes => List CubbyholeKey
  | .loadOrStorePending _ => Option Bool
  | .timeNow => Time
  | _ => Unit

/-- Whether the operation goes to storage; maps, locks and the clock do not fail. -/
def TokenOp.stored : TokenOp → Bool
  | .loadOrStorePending _ => false
  | .storePending _ _ => false
  | .deletePending _ => false
  | .lock _ => false
  | .unlock _ => false
  | .rLock _ => false
  | .rUnlock _ => false
  | .timeNow => false
  | _ => true

@[reducible] def TokenOp.Answer (op : TokenOp) : Type := Except GoError op.Result

abbrev tokens : Interface := ⟨TokenOp, TokenOp.Answer⟩

abbrev TokenM := Fallible GoError tokens

def perform (op : TokenOp) : TokenM op.Result :=
  ExceptT.mk (Prog.perform (I := tokens) op)

structure TokenState where
  entries : TokenTable := .empty
  parents : List (SaltedID × SaltedID) := []
  accessors : List (SaltedID × AccessorRecord) := []
  leases : LeaseID → Option Lease := fun _ => none
  cubbyholes : List CubbyholeItem := []
  pending : PendingKey → Option Bool := fun _ => none
  /-- The locks that are held; `true` for those held to write. -/
  locks : List (GoString × Bool) := []

/-- The store with the operations performed so far, the latest first. -/
structure World where
  state : TokenState
  log : List TokenOp := []

structure StepEnv where
  now : Time := 0
  fails : Bool := false

def errNoNamespace : GoError := .message (ofString "no namespace")

def childrenOf (parents : List (SaltedID × SaltedID)) (parent : SaltedID) : List SaltedID :=
  (parents.filter fun e => e.1 = parent).map Prod.snd

def deletePath (parents : List (SaltedID × SaltedID)) : IndexPath → List (SaltedID × SaltedID)
  | .below parent child => parents.filter fun e => e ≠ (parent, child)
  | .top _ => parents

def effect (now : Time) : (op : TokenOp) → TokenState → op.Answer × TokenState
  | .namespaceByID nsID, s => (if nsID = rootNamespaceID then .ok () else .error errNoNamespace, s)
  | .saltID id, s => (.ok ⟨id⟩, s)
  | .getEntry key, s => (.ok (s.entries.find key), s)
  | .putEntry entry, s => (.ok (), { s with entries := s.entries.put entry })
  | .deleteEntry key, s => (.ok (), { s with entries := s.entries.delete key })
  | .putIndex parent child, s =>
    (.ok (), { s with parents := deletePath s.parents (.below parent child) ++ [(parent, child)] })
  | .deleteIndex path, s => (.ok (), { s with parents := deletePath s.parents path })
  | .listChildren parent, s => (.ok (childrenOf s.parents parent), s)
  | .listParents, s => (.ok (s.parents.map Prod.fst).dedup, s)
  | .getAccessor key, s => (.ok (s.accessors.lookup key), s)
  | .putAccessor key record, s =>
    (.ok (), { s with accessors := (key, record) :: s.accessors.filter fun a => a.1 ≠ key })
  | .deleteAccessor key, s =>
    (.ok (), { s with accessors := s.accessors.filter fun a => a.1 ≠ key })
  | .listAccessors, s => (.ok (s.accessors.map Prod.fst), s)
  | .loadLease leaseID, s => (.ok (s.leases leaseID), s)
  | .putLease leaseID lease, s =>
    (.ok (), { s with leases := Function.update s.leases leaseID (some lease) })
  | .deleteLease leaseID, s =>
    (.ok (), { s with leases := Function.update s.leases leaseID none })
  | .revokeLeases _, s => (.ok (), s)
  | .listCubbyholes, s => (.ok (s.cubbyholes.map CubbyholeItem.key).dedup, s)
  | .writeCubbyhole item, s =>
    (.ok (), { s with cubbyholes :=
      item :: s.cubbyholes.filter fun i => ¬ (i.key = item.key ∧ i.path = item.path) })
  | .clearCubbyhole key, s =>
    (.ok (), { s with cubbyholes := s.cubbyholes.filter fun i => i.key ≠ key })
  | .loadOrStorePending key, s =>
    (.ok (s.pending key),
      { s with pending := Function.update s.pending key (some ((s.pending key).getD true)) })
  | .storePending key value, s =>
    (.ok (), { s with pending := Function.update s.pending key (some value) })
  | .deletePending key, s =>
    (.ok (), { s with pending := Function.update s.pending key none })
  | .lock id, s => (.ok (), { s with locks := (id, true) :: s.locks })
  | .unlock id, s => (.ok (), { s with locks := s.locks.erase (id, true) })
  | .rLock id, s => (.ok (), { s with locks := (id, false) :: s.locks })
  | .rUnlock id, s => (.ok (), { s with locks := s.locks.erase (id, false) })
  | .timeNow, s => (.ok now, s)

def exec (env : StepEnv) (op : TokenOp) (w : World) : op.Answer × World :=
  if env.fails && op.stored then (.error storageFailed, { w with log := op :: w.log })
  else ((effect env.now op w.state).1, ⟨(effect env.now op w.state).2, op :: w.log⟩)

theorem exec_cases (env : StepEnv) (op : TokenOp) (w : World) :
    op.stored = true ∧ exec env op w = (.error storageFailed, ⟨w.state, op :: w.log⟩) ∨
      exec env op w = ((effect env.now op w.state).1, ⟨(effect env.now op w.state).2, op :: w.log⟩) := by
  rw [exec]
  split
  · rename_i hfails
    exact .inl ⟨(Bool.and_eq_true_iff.mp hfails).2, rfl⟩
  · exact .inr rfl

/-- A lock is taken only when nobody holds it; readers share it. -/
def unblocked (s : TokenState) : TokenOp → Bool
  | .lock id => (id, true) ∉ s.locks ∧ (id, false) ∉ s.locks
  | .rLock id => (id, true) ∉ s.locks
  | _ => true

def healthyStep : Outcomes tokens World := fun op w answer w' =>
  ∃ env : StepEnv, env.fails = false ∧ exec env op w = (answer, w')

def healthy : Logic tokens World :=
  allOutcomes healthyStep

def anyStep : Outcomes tokens World := fun op w answer w' =>
  ∃ env : StepEnv, exec env op w = (answer, w')

def anyOutcome : Logic tokens World :=
  allOutcomes anyStep

theorem healthyStep_iff {op : TokenOp} {w w' : World} {answer : op.Answer} :
    healthyStep op w answer w' ↔ ∃ now, answer = (effect now op w.state).1 ∧
      w' = ⟨(effect now op w.state).2, op :: w.log⟩ := by
  constructor
  · rintro ⟨env, hfails, hexec⟩
    simp only [exec, hfails] at hexec
    cases hexec
    exact ⟨env.now, rfl, rfl⟩
  · rintro ⟨now, rfl, rfl⟩
    exact ⟨⟨now, false⟩, rfl, rfl⟩

theorem anyStep_cases {op : TokenOp} {w w' : World} {answer : op.Answer}
    (h : anyStep op w answer w') :
    answer = .error storageFailed ∧ w' = ⟨w.state, op :: w.log⟩ ∨
      ∃ now, answer = (effect now op w.state).1 ∧
        w' = ⟨(effect now op w.state).2, op :: w.log⟩ := by
  obtain ⟨env, hexec⟩ := h
  rcases exec_cases env op w with ⟨-, hfailed⟩ | hdone
  · cases hexec.symm.trans hfailed
    exact .inl ⟨rfl, rfl⟩
  · cases hexec.symm.trans hdone
    exact .inr ⟨env.now, rfl, rfl⟩

variable {op : TokenOp} {ok : op.Result → World → Prop} {err : GoError → World → Prop} {w : World}

theorem finishes_healthy :
    Finishes (α := no_index op.Result) healthy (perform op) w ok err ↔
      ∀ now, outcomePost ok err (effect now op w.state).1
        ⟨(effect now op w.state).2, op :: w.log⟩ := by
  constructor
  · intro h now
    exact h _ _ (healthyStep_iff.mpr ⟨now, rfl, rfl⟩)
  · intro h answer w' hstep
    obtain ⟨now, rfl, rfl⟩ := healthyStep_iff.mp hstep
    exact h now

theorem finishes_anyOutcome :
    Finishes (α := no_index op.Result) anyOutcome (perform op) w ok err ↔
      (op.stored = true → err storageFailed ⟨w.state, op :: w.log⟩) ∧
        ∀ now, outcomePost ok err (effect now op w.state).1
          ⟨(effect now op w.state).2, op :: w.log⟩ := by
  constructor
  · intro h
    constructor
    · intro hstored
      exact h (.error storageFailed) _ ⟨⟨0, true⟩, if_pos hstored⟩
    · intro now
      exact h _ _ ⟨⟨now, false⟩, rfl⟩
  rintro ⟨hfail, hrun⟩ answer w' ⟨env, hexec⟩
  by_cases hfails : (env.fails && op.stored) = true
  · rw [exec, if_pos hfails] at hexec
    cases hexec
    exact hfail (Bool.and_eq_true_iff.mp hfails).2
  · rw [exec, if_neg hfails] at hexec
    cases hexec
    exact hrun env.now

end VaultProofs.TokenEffects
