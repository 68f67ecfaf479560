import Mathlib.Data.List.AList
import VaultProofs.EffectPrograms
import VaultProofs.EntryRoundTrips

/-!
What the approval code does to the world around it: the storage view `approvals/`, the clock, UUIDs,
the router and the expiration manager. `exec` gives the operations their meaning; the environment of
a call decides the clock, the answers of the backends, the order of listings and which storage
operations fail.
-/

namespace VaultProofs.VaultEffects

open GoStrings JsonValues EffectPrograms ApprovalEntries

inductive GoError where
  | permissionDenied
  | internal
  | message (text : GoString)
  | wrapped (context : String) (cause : GoError)

structure Secret where
  ttl : Duration := 0
  maxTTL : Duration := 0
  renewable : Bool := false
  leaseID : GoString := []

structure Response where
  data : GoMap := []
  secret : Option Secret := none
  hasAuth : Bool := false
  warnings : List GoString := []

/-- The two results of a Go call, of a handler as of a backend. -/
structure Reply where
  resp : Option Response := none
  err : Option GoError := none

structure Request where
  id : String := ""
  operation : Operation := .read
  path : GoString := []
  data : Option GoMap := none
  headers : List (GoString × List GoString) := []
  entityID : String := ""
  displayName : GoString := []
  mountPoint : GoString := []
  clientToken : String := ""
  requiresSnapshotID : String := ""
  recoverSourcePath : GoString := []

def Response.has (r : Response) (key : String) : Bool :=
  match lastValue r.data (ofString key) with
  | none => false
  | some .null => false
  | some _ => true

-- Only an `error` element, or an `error` and a `data` element.
def Response.isError (r : Response) : Bool :=
  r.has "error" && (size r.data == 1 || (r.has "data" && size r.data == 2))

def textValue (text : String) : GoValue :=
  .str (ofString text)

def intValue (n : Int) : GoValue :=
  .number .int (.int n)

def dataReply (data : GoMap) : Reply :=
  { resp := some { data := data } }

def errorReply (text : GoString) : Reply :=
  dataReply [(ofString "error", .str text)]

def failedReply (err : GoError) : Reply :=
  { err := some err }

-- The raw body is kept as the value whose JSON text it is.
def respondWithStatusCode (inner : GoMap) (req : Request) (code : Int) : Reply :=
  dataReply
    [(ofString "http_content_type", textValue "application/json"),
     (ofString "http_status_code", intValue code),
     (ofString "http_raw_body",
       .map [(ofString "request_id", textValue req.id), (ofString "data", .map inner)])]

inductive Folder where
  | config
  | pending
  | history
  deriving DecidableEq

structure Key where
  folder : Folder
  name : String
  deriving DecidableEq

/-- The bytes of a storage entry: a JSON text, or bytes that are not JSON. -/
inductive Blob where
  | json (value : Json)
  | garbage

inductive VaultOp where
  | storageGet (key : Key)
  | storagePut (key : Key) (value : Json)
  | storageDelete (key : Key)
  | storageList (folder : Folder)
  | timeNow
  | generateUUID
  | doRouting (req : Request)
  | registerLease (req : Request) (resp : Response)

@[reducible] def VaultOp.Answer : VaultOp → Type
  | .storageGet _ => Except GoError (Option Blob)
  | .storagePut _ _ => Except GoError Unit
  | .storageDelete _ => Except GoError Unit
  | .storageList _ => Except GoError (List String)
  | .timeNow => Time
  | .generateUUID => Except GoError String
  | .doRouting _ => Reply
  | .registerLease _ _ => Except GoError GoString

abbrev vault : Interface := ⟨VaultOp, VaultOp.Answer⟩

abbrev VaultProg := Prog vault

def storageGet (key : Key) : VaultProg (Except GoError (Option Blob)) :=
  Prog.perform (I := vault) (.storageGet key)

def storagePut (key : Key) (value : Json) : VaultProg (Except GoError Unit) :=
  Prog.perform (I := vault) (.storagePut key value)

def storageDelete (key : Key) : VaultProg (Except GoError Unit) :=
  Prog.perform (I := vault) (.storageDelete key)

def storageList (folder : Folder) : VaultProg (Except GoError (List String)) :=
  Prog.perform (I := vault) (.storageList folder)

def timeNow : VaultProg Time :=
  Prog.perform (I := vault) .timeNow

def generateUUID : VaultProg (Except GoError String) :=
  Prog.perform (I := vault) .generateUUID

def doRouting (req : Request) : VaultProg Reply :=
  Prog.perform (I := vault) (.doRouting req)

def registerLease (req : Request) (resp : Response) : VaultProg (Except GoError GoString) :=
  Prog.perform (I := vault) (.registerLease req resp)

def decodeFailed : GoError :=
  .message (ofString "failed to decode storage entry")

def encodeFailed : GoError :=
  .message (ofString "failed to encode storage entry")

def storageFailed : GoError :=
  .message (ofString "storage operation failed")

def Blob.decode {α : Type} (read : Json → Option α) : Blob → Option α
  | .json value => read value
  | .garbage => none

def decodeEntry {α : Type} (read : Json → Option α) :
    Except GoError (Option Blob) → Except GoError (Option α)
  | .error e => .error e
  | .ok none => .ok none
  | .ok (some blob) =>
    match blob.decode read with
    | some value => .ok (some value)
    | none => .error decodeFailed

def pendingKey (id : String) : Key := ⟨.pending, id⟩

def configKey (ruleID : String) : Key := ⟨.config, ruleID⟩

def historyKey (id : String) : Key := ⟨.history, id⟩

def getApprovalRule (ruleID : String) : VaultProg (Except GoError (Option ApprovalRule)) := do
  return decodeEntry ApprovalRule.decodeJSON (← storageGet (configKey ruleID))

def getPendingRequest (id : String) : VaultProg (Except GoError (Option PendingRequest)) := do
  return decodeEntry PendingRequest.decodeJSON (← storageGet (pendingKey id))

def putApprovalRule (rule : ApprovalRule) : VaultProg (Except GoError Unit) :=
  storagePut (configKey rule.ruleID) rule.marshalJSON

def storePendingRequest (r : PendingRequest) : VaultProg (Except GoError Unit) :=
  match r.marshalJSON with
  | none => return .error encodeFailed
  | some value => storagePut (pendingKey r.requestID) value

def storeHistoryEntry (h : ApprovalHistoryEntry) : VaultProg (Except GoError Unit) :=
  storagePut (historyKey h.requestID) h.marshalJSON

abbrev Store := AList fun _ : Key => Blob

/-- What surrounds a call or a step: the clock, the next UUID, the answers of the backends and of
the expiration manager, the order in which storage lists names, and which storage operations fail,
by their number within the call. -/
structure Env where
  now : Time
  uuid : Except GoError String
  backend : Request → Reply
  register : Request → Response → Except GoError GoString
  listOrder : List String → List String
  listOrder_perm : ∀ names, (listOrder names).Perm names
  fails : Nat → VaultOp → Bool

def Env.Reliable (env : Env) : Prop :=
  ∀ n op, env.fails n op = false

/-- An environment without failures that lists names in storage order. -/
def Env.quiet (now : Time) (backend : Request → Reply) : Env where
  now := now
  uuid := .ok "5d2b6e0c"
  backend := backend
  register _ _ := .ok (ofString "database/creds/app/h7")
  listOrder := id
  listOrder_perm := List.Perm.refl
  fails _ _ := false

structure World where
  store : Store
  storageOps : Nat := 0
  routed : List (Request × Reply) := []
  leases : List (Request × Response × GoString) := []

def folderNames (store : Store) (folder : Folder) : List String :=
  store.keys.filterMap fun key => if key.folder = folder then some key.name else none

def World.tick (w : World) : World :=
  { w with storageOps := w.storageOps + 1 }

def exec (env : Env) : (op : VaultOp) → World → op.Answer × World
  | .storageGet key, w =>
    if env.fails w.storageOps (.storageGet key) then (.error storageFailed, w.tick)
    else (.ok (w.store.lookup key), w.tick)
  | .storagePut key value, w =>
    if env.fails w.storageOps (.storagePut key value) then (.error storageFailed, w.tick)
    else (.ok (), { w.tick with store := w.store.insert key (.json value) })
  | .storageDelete key, w =>
    if env.fails w.storageOps (.storageDelete key) then (.error storageFailed, w.tick)
    else (.ok (), { w.tick with store := w.store.erase key })
  | .storageList folder, w =>
    if env.fails w.storageOps (.storageList folder) then (.error storageFailed, w.tick)
    else (.ok (env.listOrder (folderNames w.store folder)), w.tick)
  | .timeNow, w => (env.now, w)
  | .generateUUID, w => (env.uuid, w)
  | .doRouting req, w =>
    (env.backend req, { w with routed := w.routed ++ [(req, env.backend req)] })
  | .registerLease req resp, w =>
    (env.register req resp,
      match env.register req resp with
      | .ok leaseID => { w with leases := w.leases ++ [(req, resp, leaseID)] }
      | .error _ => w)

theorem run_getApprovalRule (env : Env) (ruleID : String) (w : World) :
    (getApprovalRule ruleID).run (exec env) w =
      (decodeEntry ApprovalRule.decodeJSON (exec env (.storageGet (configKey ruleID)) w).1,
        (exec env (.storageGet (configKey ruleID)) w).2) := rfl

theorem run_getPendingRequest (env : Env) (id : String) (w : World) :
    (getPendingRequest id).run (exec env) w =
      (decodeEntry PendingRequest.decodeJSON (exec env (.storageGet (pendingKey id)) w).1,
        (exec env (.storageGet (pendingKey id)) w).2) := rfl

theorem exec_storageGet_snd (env : Env) (key : Key) (w : World) :
    (exec env (.storageGet key) w).2 = w.tick := by
  simp only [exec]
  split <;> rfl

theorem exec_storageList_snd (env : Env) (folder : Folder) (w : World) :
    (exec env (.storageList folder) w).2 = w.tick := by
  simp only [exec]
  split <;> rfl

def storedRule (store : Store) (ruleID : String) : Option ApprovalRule :=
  (store.lookup (configKey ruleID)).bind (Blob.decode ApprovalRule.decodeJSON)

def storedPending (store : Store) (id : String) : Option PendingRequest :=
  (store.lookup (pendingKey id)).bind (Blob.decode PendingRequest.decodeJSON)

theorem decodeEntry_eq_some_iff {α : Type} (read : Json → Option α) (blob : Option Blob)
    (value : α) :
    decodeEntry read (.ok blob) = .ok (some value) ↔ blob.bind (Blob.decode read) = some value := by
  cases blob with
  | none => simp [decodeEntry]
  | some blob =>
    simp only [decodeEntry, Option.bind_some]
    cases blob.decode read with
    | none | some found => simp

theorem storedPending_insert_self (store : Store) (id : String) (value : Json) :
    storedPending (store.insert (pendingKey id) (.json value)) id =
      PendingRequest.decodeJSON value := by
  simp [storedPending, Blob.decode]

theorem pendingKey_ne {id id' : String} (h : id' ≠ id) : pendingKey id' ≠ pendingKey id := by
  intro hkey
  cases hkey
  exact h rfl

variable {key : Key}

theorem storedPending_insert_of_ne (store : Store) (id : String) (blob : Blob)
    (hkey : key ≠ pendingKey id) :
    storedPending (store.insert key blob) id = storedPending store id := by
  simp [storedPending, AList.lookup_insert_ne hkey.symm]

theorem storedPending_erase_self (store : Store) (id : String) :
    storedPending (store.erase (pendingKey id)) id = none := by
  simp [storedPending]

theorem storedPending_erase_of_ne (store : Store) (id : String) (hkey : key ≠ pendingKey id) :
    storedPending (store.erase key) id = storedPending store id := by
  simp [storedPending, AList.lookup_erase_ne hkey.symm]

variable {store : Store}

theorem mem_folderNames_of_lookup {blob : Blob} (h : store.lookup key = some blob) :
    key.name ∈ folderNames store key.folder := by
  have hmem : key ∈ store.keys := AList.mem_keys.mp (AList.lookup_isSome.mp (h ▸ rfl))
  exact List.mem_filterMap.mpr ⟨key, hmem, if_pos rfl⟩

theorem mem_folderNames {id : String} {p : PendingRequest} (h : storedPending store id = some p) :
    id ∈ folderNames store .pending := by
  obtain ⟨blob, hblob, -⟩ := Option.bind_eq_some_iff.mp h
  exact mem_folderNames_of_lookup hblob

theorem nodup_folderNames (store : Store) (folder : Folder) : (folderNames store folder).Nodup := by
  refine store.keys_nodup.filterMap ?_
  intro key key' name hname hname'
  simp only [Option.mem_def, Option.ite_none_right_eq_some, Option.some.injEq] at hname hname'
  cases key
  cases key'
  simp_all

def World.put (w : World) (key : Key) (value : Json) : World :=
  { w.tick with store := w.store.insert key (.json value) }

def World.delete (w : World) (key : Key) : World :=
  { w.tick with store := w.store.erase key }

def World.route (w : World) (req : Request) (reply : Reply) : World :=
  { w with routed := w.routed ++ [(req, reply)] }

theorem run_timeNow (env : Env) (w : World) : timeNow.run (exec env) w = (env.now, w) := rfl

theorem run_generateUUID (env : Env) (w : World) :
    generateUUID.run (exec env) w = (env.uuid, w) := rfl

theorem run_doRouting (env : Env) (req : Request) (w : World) :
    (doRouting req).run (exec env) w = (env.backend req, w.route req (env.backend req)) := rfl

variable {env : Env}

theorem exec_storageGet (henv : env.Reliable) (key : Key) (w : World) :
    exec env (.storageGet key) w = (.ok (w.store.lookup key), w.tick) := by
  simp [exec, henv _ _]

theorem exec_storagePut (henv : env.Reliable) (key : Key) (value : Json) (w : World) :
    exec env (.storagePut key value) w = (.ok (), w.put key value) := by
  simp [exec, henv _ _, World.put]

theorem exec_storageDelete (henv : env.Reliable) (key : Key) (w : World) :
    exec env (.storageDelete key) w = (.ok (), w.delete key) := by
  simp [exec, henv _ _, World.delete]

theorem exec_storageList (henv : env.Reliable) (folder : Folder) (w : World) :
    exec env (.storageList folder) w =
      (.ok (env.listOrder (folderNames w.store folder)), w.tick) := by
  simp [exec, henv _ _]

def Env.HealthyAt (env : Env) (n : Nat) : Prop :=
  ∀ op, env.fails n op = false

variable {id : String} {w : World} {p : PendingRequest}

theorem run_getPendingRequest_at (hn : env.HealthyAt w.storageOps)
    (hp : storedPending w.store id = some p) :
    (getPendingRequest id).run (exec env) w = (.ok (some p), w.tick) := by
  rw [run_getPendingRequest, exec, if_neg (by simp [hn _])]
  rw [(decodeEntry_eq_some_iff PendingRequest.decodeJSON _ p).mpr hp]

theorem run_getApprovalRule_at (hn : env.HealthyAt w.storageOps) {rule : ApprovalRule}
    (hrule : storedRule w.store id = some rule) :
    (getApprovalRule id).run (exec env) w = (.ok (some rule), w.tick) := by
  rw [run_getApprovalRule, exec, if_neg (by simp [hn _])]
  rw [(decodeEntry_eq_some_iff ApprovalRule.decodeJSON _ rule).mpr hrule]

variable {r : PendingRequest}

theorem run_storePendingRequest_at {value : Json} (hn : env.HealthyAt w.storageOps)
    (hvalue : r.marshalJSON = some value) :
    (storePendingRequest r).run (exec env) w = (.ok (), w.put (pendingKey r.requestID) value) := by
  unfold storePendingRequest
  rw [hvalue]
  show exec env (.storagePut _ _) w = _
  rw [exec, if_neg (by simp [hn _])]
  rfl

theorem run_storePendingRequest_of_some (henv : env.Reliable) {value : Json}
    (hvalue : r.marshalJSON = some value) (w : World) :
    (storePendingRequest r).run (exec env) w = (.ok (), w.put (pendingKey r.requestID) value) :=
  run_storePendingRequest_at (henv _) hvalue

theorem run_storePendingRequest_of_none (hnone : r.marshalJSON = none) (w : World) :
    (storePendingRequest r).run (exec env) w = (.error encodeFailed, w) := by
  unfold storePendingRequest
  rw [hnone]
  rfl

theorem run_storageDelete (henv : env.Reliable) (key : Key) (w : World) :
    (storageDelete key).run (exec env) w = (.ok (), w.delete key) :=
  exec_storageDelete henv key w

theorem storedPending_put {value : Json} (hvalue : r.marshalJSON = some value)
    (w : World) (hid : r.requestID = id) :
    storedPending (w.put (pendingKey r.requestID) value).store id = some r.normalize := by
  subst hid
  unfold World.put
  rw [storedPending_insert_self, PendingRequest.decodeJSON_marshalJSON hvalue]

theorem exists_marshalJSON (hp : storedPending store id = some p)
    (hdata : r.originalData = p.originalData)
    (hcredential : r.credentialData = p.credentialData ∨ r.credentialData = none) :
    ∃ value, r.marshalJSON = some value := by
  obtain ⟨blob, -, hblob⟩ := Option.bind_eq_some_iff.mp hp
  cases blob with
  | garbage => cases hblob
  | json value =>
    obtain ⟨⟨data, hp⟩, credential, hp'⟩ := PendingRequest.marshalMap_of_decodeJSON hblob
    apply Option.ne_none_iff_exists'.mp
    rw [Ne, PendingRequest.marshalJSON_eq_none_iff, hdata, hp]
    rcases hcredential with h | h
    · simp [h, hp']
    · simp [h, marshalMap]

end VaultProofs.VaultEffects
