import VaultProofs.SpecialPaths
import VaultProofs.PhysicalStores
import VaultProofs.EvictingCaches

/-!
The cache over a physical backend: a write goes to the backend and is cached if it succeeds, a read
is answered from the cache or else cached, also if nothing was found, and some paths are never
cached. The backend is a map from keys to values that may reject any operation without effect.
-/

namespace VaultProofs.PhysicalCache

open GoStrings EvictingCaches PhysicalStores
open VaultEffects (GoError)

structure PathManager where
  paths : SpecialPaths.Tree Bool

/-- One path of the list, under its text without a trailing asterisk; `!` makes it an exception. -/
def addPath (paths : SpecialPaths.Tree Bool) (path : GoString) : SpecialPaths.Tree Bool :=
  if path.isEmpty then paths
  else if hasPrefix path (ofString "!") then
    paths.insert (trimSuffix (trimPrefix path (ofString "!")) (ofString "*")) true
  else paths.insert (trimSuffix path (ofString "*")) false

def PathManager.addPaths (p : PathManager) (paths : List GoString) : PathManager :=
  ⟨paths.foldl addPath p.paths⟩

def PathManager.hasPath (p : PathManager) (path : GoString) : Bool :=
  match p.paths.longestPrefix path with
  | some (_, exception) => !exception
  | none => false

def cacheExceptionsPaths : List GoString :=
  ["wal/logs/", "index/pages/", "index-dr/pages/", "sys/expire/", "core/poison-pill",
    "core/raft/tls", "core/seal-config", "core/recovery-config",
    "core/autoloaded-license"].map ofString

def rejectable {α : Type} (fault : Option GoError) (answer : α) (after before : Store) :
    Except GoError α × Store :=
  match fault with
  | none => (.ok answer, after)
  | some err => (.error err, before)

def backendPut (fault : Option GoError) (entry : Entry) (s : Store) : Except GoError Unit × Store :=
  rejectable fault () (s.put entry) s

def backendGet (fault : Option GoError) (key : GoString) (s : Store) :
    Except GoError (Option Entry) × Store :=
  rejectable fault (s.get key) s s

def backendDelete (fault : Option GoError) (key : GoString) (s : Store) :
    Except GoError Unit × Store :=
  rejectable fault () (s.delete key) s

def backendTransaction (fault : Option GoError) (txns : List TxnEntry) (s : Store) :
    Except GoError (List TxnEntry) × Store :=
  rejectable fault (txns.map (TxnEntry.read s)) (applyAll txns s) s

structure Cache (policy : EvictingCache GoString (Option Entry)) where
  backend : Store
  lru : policy.Carrier
  enabled : Bool
  cacheExceptions : PathManager

def newCache (policy : EvictingCache GoString (Option Entry)) (b : Store) : Cache policy where
  backend := b
  lru := policy.new
  enabled := false
  cacheExceptions := PathManager.addPaths ⟨∅⟩ cacheExceptionsPaths

namespace Cache

variable {policy : EvictingCache GoString (Option Entry)}

def setEnabled (enabled : Bool) (c : Cache policy) : Cache policy :=
  { c with enabled }

def shouldCache (c : Cache policy) (key : GoString) : Bool :=
  if c.enabled then !c.cacheExceptions.hasPath key else false

def purge (c : Cache policy) : Cache policy :=
  { c with lru := policy.purge c.lru }

def put (fault : Option GoError) (entry : Entry) (c : Cache policy) :
    Except GoError Unit × Cache policy :=
  let (answer, backend) := backendPut fault entry c.backend
  if !c.shouldCache entry.key then (answer, { c with backend })
  else
    match answer with
    | .ok _ => (answer, { c with backend, lru := policy.add c.lru entry.key (some entry) })
    | .error _ => (answer, { c with backend })

def get (fault : Option GoError) (refresh : Bool) (key : GoString) (c : Cache policy) :
    Except GoError (Option Entry) × Cache policy :=
  if !c.shouldCache key then ((backendGet fault key c.backend).1, c)
  else
    let (hit, lru) := if refresh then (none, c.lru) else policy.get c.lru key
    match hit with
    | some raw => (.ok raw, { c with lru })
    | none =>
      match (backendGet fault key c.backend).1 with
      | .error err => (.error err, { c with lru })
      -- the result is cached, even if nil
      | .ok ent => (.ok ent, { c with lru := policy.add lru key ent })

def delete (fault : Option GoError) (key : GoString) (c : Cache policy) :
    Except GoError Unit × Cache policy :=
  let (answer, backend) := backendDelete fault key c.backend
  if !c.shouldCache key then (answer, { c with backend })
  else
    match answer with
    | .ok _ => (answer, { c with backend, lru := policy.remove c.lru key })
    | .error _ => (answer, { c with backend })

/-- What the cache does for one entry of a transaction that went through. -/
def cacheTxn (c : Cache policy) (lru : policy.Carrier) (txn : TxnEntry) : policy.Carrier :=
  if !c.shouldCache txn.entry.key then lru
  else
    match txn.operation with
    | .put => policy.add lru txn.entry.key (some txn.entry)
    | .delete => policy.remove lru txn.entry.key
    | .get => lru
    | .list => lru

def transaction (fault : Option GoError) (txns : List TxnEntry) (c : Cache policy) :
    Except GoError (List TxnEntry) × Cache policy :=
  let (answer, backend) := backendTransaction fault txns c.backend
  if !c.enabled then (answer, { c with backend })
  else
    match answer with
    | .error _ => (answer, { c with backend })
    | .ok txns => (answer, { c with backend, lru := txns.foldl c.cacheTxn c.lru })

end Cache

inductive CacheOp where
  | put (entry : Entry)
  | get (refresh : Bool) (key : GoString)
  | delete (key : GoString)
  | transaction (txns : List TxnEntry)
  | purge

structure Call where
  op : CacheOp
  fault : Option GoError

inductive Answer where
  | written (result : Except GoError Unit)
  | found (result : Except GoError (Option Entry))
  | transacted (result : Except GoError (List TxnEntry))
  | purged

def Cache.serve {policy : EvictingCache GoString (Option Entry)} (c : Cache policy) (call : Call) :
    Answer × Cache policy :=
  match call.op with
  | .put entry => (c.put call.fault entry).map .written id
  | .get refresh key => (c.get call.fault refresh key).map .found id
  | .delete key => (c.delete call.fault key).map .written id
  | .transaction txns => (c.transaction call.fault txns).map .transacted id
  | .purge => (.purged, c.purge)

/-- The same call of the backend, which has nothing to purge. -/
def serveDirectly (s : Store) (call : Call) : Answer × Store :=
  match call.op with
  | .put entry => (backendPut call.fault entry s).map .written id
  | .get _ key => (backendGet call.fault key s).map .found id
  | .delete key => (backendDelete call.fault key s).map .written id
  | .transaction txns => (backendTransaction call.fault txns s).map .transacted id
  | .purge => (.purged, s)

def serveAll {σ : Type} (serve : σ → Call → Answer × σ) : List Call → σ → List Answer × σ
  | [], s => ([], s)
  | call :: calls, s =>
    let (answer, s) := serve s call
    let (answers, s) := serveAll serve calls s
    (answer :: answers, s)

variable {paths : List GoString} {start : GoString}

/-- A path that is stored under its own text and is no exception. -/
def Plain (path : GoString) : Prop :=
  path.isEmpty = false ∧ hasPrefix path (ofString "!") = false ∧
    trimSuffix path (ofString "*") = path

instance (path : GoString) : Decidable (Plain path) :=
  inferInstanceAs (Decidable (_ ∧ _ ∧ _))

theorem lookup_addPaths (hplain : ∀ path ∈ paths, Plain path) (tree : SpecialPaths.Tree Bool) :
    (paths.foldl addPath tree).lookup start =
      if start ∈ paths then some false else tree.lookup start := by
  induction paths generalizing tree with
  | nil => simp
  | cons path paths ih =>
    obtain ⟨⟨hne, hmark, htext⟩, hlater⟩ := List.forall_mem_cons.mp hplain
    rw [List.foldl_cons, ih hlater, addPath, hne, hmark, htext]
    by_cases hin : start ∈ paths
    · simp [hin]
    by_cases hpath : start = path
    · subst hpath
      simp [hin]
    · simp [hin, hpath, AList.lookup_insert_ne hpath]

theorem hasPath_iff {p : PathManager} (path : GoString)
    (hnone : ∀ start exception, p.paths.lookup start = some exception → exception = false) :
    p.hasPath path = true ↔ ∃ start, (p.paths.lookup start).isSome = true ∧ start <+: path := by
  rw [PathManager.hasPath]
  rcases SpecialPaths.longestPrefix_cases p.paths path with
    ⟨hmissing, hall⟩ | ⟨start, exception, hfound, hlookup, hstarts, -⟩
  · rw [hmissing]
    refine iff_of_false nofun ?_
    rintro ⟨start, hsome, hstarts⟩
    exact hall start (AList.lookup_isSome.mp hsome) hstarts
  · rw [hfound, hnone start exception hlookup]
    exact iff_of_true rfl ⟨start, by rw [hlookup]; rfl, hstarts⟩

end VaultProofs.PhysicalCache
