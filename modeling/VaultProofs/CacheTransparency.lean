import VaultProofs.AtomicTransactions
import VaultProofs.PhysicalCache

/-!
The cache is transparent: of the keys it serves it holds what the backend has, whatever is evicted,
so calls are answered as by the backend. Only, a read from the cache cannot be rejected by the
backend.
-/

namespace VaultProofs.CacheTransparency

open GoStrings EvictingCaches PhysicalStores AtomicTransactions PhysicalCache
open VaultEffects (GoError)

variable {policy : EvictingCache GoString (Option Entry)} {c : Cache policy}

def outcome (r : (List GoError × List TxnEntry) × (Store × Nat)) :
    Except GoError (List TxnEntry) × Store :=
  match r.1.1 with
  | [] => (.ok r.1.2, r.2.1)
  | err :: _ => (.error err, r.2.1)

/-- It is a transaction of a backend that is rejected as a whole or not at all, if at most one
internal operation is. -/
theorem transaction_refines {env : Nat → Option GoError} (failGetInTxn : Bool)
    (txns : List TxnEntry) (s : Store)
    (hlast : ∀ k err, env k = some err → ∀ n, k < n → env n = none) :
    ∃ fault, outcome (runStore env (transaction failGetInTxn txns) (s, 0)) =
      backendTransaction fault txns s := by
  rw [transaction]
  by_cases hrefused : (failGetInTxn && txns.any fun txn => txn.operation = .get) = true
  · rw [if_pos hrefused]
    exact ⟨some getInTxnDisabledError, rfl⟩
  rw [if_neg hrefused]
  obtain ⟨errs, filled, after, count, hrun, hend⟩ := handler_run txns s hlast
  rw [hrun]
  rcases hend with ⟨rfl, rfl, rfl, -⟩ | ⟨_, err, -, -, rfl, rfl⟩
  · exact ⟨none, rfl⟩
  · exact ⟨some err, rfl⟩

/-- The cache is enabled and holds what the backend has, absent entries included. -/
structure Coherent (c : Cache policy) : Prop where
  enabled : c.enabled = true
  reflects : policy.Reflects (fun key => c.shouldCache key = true) c.backend.get c.lru

/-- The call for which the backend would give the same answer: a read that the cache answers is not
rejected. -/
def ServedAs (call served : Call) : Prop :=
  served.op = call.op ∧ (served.fault = call.fault ∨
    (∃ refresh key, call.op = .get refresh key) ∧ served.fault = none)

/-- A call is answered, and leaves the backend, as the backend would. -/
def Faithful (c : Cache policy) (call : Call) (after : Answer × Cache policy) : Prop :=
  ∃ served, ServedAs call served ∧
    serveDirectly c.backend served = (after.1, after.2.backend) ∧ Coherent after.2

theorem Coherent.bypass (h : Coherent c) {key : GoString} {backend : Store}
    (hkey : ¬ c.shouldCache key = true)
    (hsame : ∀ other, other ≠ key → backend.get other = c.backend.get other) :
    Coherent { c with backend } := by
  refine ⟨h.enabled, h.reflects.congr fun other hasked => hsame other ?_⟩
  rintro rfl
  exact hkey hasked

theorem put_faithful (h : Coherent c) (entry : Entry) (fault : Option GoError) :
    Faithful c ⟨.put entry, fault⟩ (c.serve ⟨.put entry, fault⟩) := by
  refine ⟨⟨.put entry, fault⟩, ⟨rfl, .inl rfl⟩, ?_⟩
  have hother : ∀ other, other ≠ entry.key →
      (c.backend.put entry).get other = c.backend.get other :=
    fun _ => Store.get_put_ne _
  cases fault with
  | some err =>
    have hserve : c.serve ⟨.put entry, some err⟩ = (.written (.error err), c) := by
      simp [Cache.serve, Cache.put, backendPut, rejectable]
    rw [hserve]
    exact ⟨rfl, h⟩
  | none =>
    by_cases hcache : c.shouldCache entry.key = true
    · have hserve : c.serve ⟨.put entry, none⟩ = (.written (.ok ()),
          { c with
            backend := c.backend.put entry
            lru := policy.add c.lru entry.key (some entry) }) := by
        simp [Cache.serve, Cache.put, backendPut, rejectable, hcache]
      rw [hserve]
      exact ⟨rfl, h.enabled, h.reflects.add (Store.get_put _ _) hother⟩
    have hserve : c.serve ⟨.put entry, none⟩ =
        (.written (.ok ()), { c with backend := c.backend.put entry }) := by
      simp [Cache.serve, Cache.put, backendPut, rejectable, hcache]
    rw [hserve]
    exact ⟨rfl, h.bypass hcache hother⟩

theorem delete_faithful (h : Coherent c) (key : GoString) (fault : Option GoError) :
    Faithful c ⟨.delete key, fault⟩ (c.serve ⟨.delete key, fault⟩) := by
  refine ⟨⟨.delete key, fault⟩, ⟨rfl, .inl rfl⟩, ?_⟩
  have hother : ∀ other, other ≠ key →
      (c.backend.delete key).get other = c.backend.get other :=
    fun _ => Store.get_delete_ne _
  cases fault with
  | some err =>
    have hserve : c.serve ⟨.delete key, some err⟩ = (.written (.error err), c) := by
      simp [Cache.serve, Cache.delete, backendDelete, rejectable]
    rw [hserve]
    exact ⟨rfl, h⟩
  | none =>
    by_cases hcache : c.shouldCache key = true
    · have hserve : c.serve ⟨.delete key, none⟩ = (.written (.ok ()),
          { c with backend := c.backend.delete key, lru := policy.remove c.lru key }) := by
        simp [Cache.serve, Cache.delete, backendDelete, rejectable, hcache]
      rw [hserve]
      exact ⟨rfl, h.enabled, h.reflects.remove hother⟩
    have hserve : c.serve ⟨.delete key, none⟩ =
        (.written (.ok ()), { c with backend := c.backend.delete key }) := by
      simp [Cache.serve, Cache.delete, backendDelete, rejectable, hcache]
    rw [hserve]
    exact ⟨rfl, h.bypass hcache hother⟩

theorem get_faithful (h : Coherent c) (refresh : Bool) (key : GoString) (fault : Option GoError) :
    Faithful c ⟨.get refresh key, fault⟩ (c.serve ⟨.get refresh key, fault⟩) := by
  by_cases hcache : c.shouldCache key = true
  · have hlookup : ∃ hit lru,
        (if refresh then (none, c.lru) else policy.get c.lru key) = (hit, lru) ∧
        policy.Reflects (fun key => c.shouldCache key = true) c.backend.get lru ∧
        ∀ raw, hit = some raw → raw = c.backend.get key := by
      cases refresh with
      | true => exact ⟨none, c.lru, rfl, h.reflects, nofun⟩
      | false => exact ⟨_, _, rfl, h.reflects.get key, fun raw => h.reflects key raw hcache⟩
    obtain ⟨hit, lru, hlookup, hreflects, hhit⟩ := hlookup
    cases hit with
    | some raw =>
      -- answered from the cache, whatever the backend would do
      have hserve : c.serve ⟨.get refresh key, fault⟩ =
          (.found (.ok (c.backend.get key)), { c with lru }) := by
        simp [Cache.serve, Cache.get, hcache, hlookup, hhit raw rfl]
      rw [hserve]
      exact ⟨⟨.get refresh key, none⟩, ⟨rfl, .inr ⟨⟨refresh, key, rfl⟩, rfl⟩⟩, rfl,
        h.enabled, hreflects⟩
    | none =>
      refine ⟨⟨.get refresh key, fault⟩, ⟨rfl, .inl rfl⟩, ?_⟩
      cases fault with
      | some err =>
        have hserve : c.serve ⟨.get refresh key, some err⟩ =
            (.found (.error err), { c with lru }) := by
          simp [Cache.serve, Cache.get, hcache, hlookup, backendGet, rejectable]
        rw [hserve]
        exact ⟨rfl, h.enabled, hreflects⟩
      | none =>
        have hserve : c.serve ⟨.get refresh key, none⟩ =
            (.found (.ok (c.backend.get key)),
              { c with lru := policy.add lru key (c.backend.get key) }) := by
          simp [Cache.serve, Cache.get, hcache, hlookup, backendGet, rejectable]
        rw [hserve]
        exact ⟨rfl, h.enabled, hreflects.add rfl fun _ _ => rfl⟩
  have hserve : c.serve ⟨.get refresh key, fault⟩ =
      (.found (backendGet fault key c.backend).1, c) := by
    simp [Cache.serve, Cache.get, hcache]
  rw [hserve]
  refine ⟨⟨.get refresh key, fault⟩, ⟨rfl, .inl rfl⟩, ?_, h⟩
  cases fault with
  | none | some err => rfl

theorem cacheTxn_reflects {s : Store} {lru : policy.Carrier} (txn : TxnEntry)
    (h : policy.Reflects (fun key => c.shouldCache key = true) s.get lru) :
    policy.Reflects (fun key => c.shouldCache key = true) (txn.apply s).get
      (c.cacheTxn lru txn) := by
  have hother : ∀ other, other ≠ txn.entry.key → (txn.apply s).get other = s.get other := by
    intro other hne
    rw [TxnEntry.apply]
    cases txn.operation with
    | put => exact Store.get_put_ne s hne
    | delete => exact Store.get_delete_ne s hne
    | get | list => rfl
  by_cases hcache : c.shouldCache txn.entry.key = true
  · cases hoperation : txn.operation with
    | put =>
      have hnew : (txn.apply s).get txn.entry.key = some txn.entry := by
        rw [TxnEntry.apply, hoperation]
        exact Store.get_put s txn.entry
      simpa [Cache.cacheTxn, hcache, hoperation] using h.add hnew hother
    | delete => simpa [Cache.cacheTxn, hcache, hoperation] using h.remove hother
    | get | list => simpa [Cache.cacheTxn, hcache, hoperation, TxnEntry.apply] using h
  have hsame : ∀ key, c.shouldCache key = true → (txn.apply s).get key = s.get key := by
    intro key hasked
    refine hother key ?_
    rintro rfl
    exact hcache hasked
  simpa [Cache.cacheTxn, hcache] using h.congr hsame

theorem cacheTxns_reflects {s : Store} {lru : policy.Carrier} (txns : List TxnEntry)
    (h : policy.Reflects (fun key => c.shouldCache key = true) s.get lru) :
    policy.Reflects (fun key => c.shouldCache key = true) (applyAll txns s).get
      (txns.foldl c.cacheTxn lru) := by
  induction txns generalizing s lru with
  | nil => exact h
  | cons txn txns ih => exact ih (cacheTxn_reflects txn h)

theorem transaction_faithful (h : Coherent c) (txns : List TxnEntry) (fault : Option GoError) :
    Faithful c ⟨.transaction txns, fault⟩ (c.serve ⟨.transaction txns, fault⟩) := by
  refine ⟨⟨.transaction txns, fault⟩, ⟨rfl, .inl rfl⟩, ?_⟩
  cases fault with
  | some err =>
    have hserve : c.serve ⟨.transaction txns, some err⟩ = (.transacted (.error err), c) := by
      simp [Cache.serve, Cache.transaction, backendTransaction, rejectable]
    rw [hserve]
    exact ⟨rfl, h⟩
  | none =>
    have hserve : c.serve ⟨.transaction txns, none⟩ =
        (.transacted (.ok (txns.map (TxnEntry.read c.backend))),
          { c with
            backend := applyAll txns c.backend
            lru := (txns.map (TxnEntry.read c.backend)).foldl c.cacheTxn c.lru }) := by
      simp [Cache.serve, Cache.transaction, backendTransaction, rejectable, h.enabled]
    have hreflects := cacheTxns_reflects (txns.map (TxnEntry.read c.backend)) h.reflects
    rw [applyAll_map_read] at hreflects
    rw [hserve]
    exact ⟨rfl, h.enabled, hreflects⟩

theorem serve_faithful (h : Coherent c) (call : Call) : Faithful c call (c.serve call) := by
  obtain ⟨op, fault⟩ := call
  cases op with
  | put entry => exact put_faithful h entry fault
  | get refresh key => exact get_faithful h refresh key fault
  | delete key => exact delete_faithful h key fault
  | transaction txns => exact transaction_faithful h txns fault
  | purge =>
    exact ⟨⟨.purge, fault⟩, ⟨rfl, .inl rfl⟩, rfl, h.enabled, EvictingCache.reflects_purge _ _ _⟩

theorem serveAll_faithful (h : Coherent c) (calls : List Call) :
    ∃ served, List.Forall₂ ServedAs calls served ∧
      serveAll serveDirectly served c.backend =
        ((serveAll Cache.serve calls c).1, (serveAll Cache.serve calls c).2.backend) := by
  induction calls generalizing c with
  | nil => exact ⟨[], .nil, rfl⟩
  | cons call calls ih =>
    obtain ⟨first, hfirst, hanswer, hcoherent⟩ := serve_faithful h call
    obtain ⟨rest, hrest, hanswers⟩ := ih hcoherent
    refine ⟨first :: rest, .cons hfirst hrest, ?_⟩
    simp only [serveAll, hanswer, hanswers]

/-- A read that the cache answers, with which everything is evicted, and one that it does not. -/
example (err : GoError) :
    let entry : Entry := ⟨[1], [2]⟩
    (serveAll Cache.serve
      [⟨.put entry, none⟩, ⟨.get false [1], some err⟩, ⟨.get false [1], some err⟩]
      ((newCache (scheduled [fun _ => false, fun _ => true]) fun _ => none).setEnabled true)).1 =
        [.written (.ok ()), .found (.ok (some entry)), .found (.error err)] := by
  rfl

end VaultProofs.CacheTransparency
