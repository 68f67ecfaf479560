import VaultProofs.PhysicalStores

/-!
A generic transaction is applied as a whole or not at all, if at most one operation is rejected.
-/

namespace VaultProofs.AtomicTransactions

open GoStrings EffectPrograms ProgramOutcomes PhysicalStores
open VaultEffects (GoError)

variable {α : Type} {env : Nat → Option GoError}

/-- Run a program where `env n` says how the operation number `n` is rejected. -/
def runStore (env : Nat → Option GoError) (p : StoreProg α) (s : Store × Nat) : α × (Store × Nat) :=
  p.run (numbered exec env) s

theorem runStore_bind {β : Type} (p : StoreProg α) (f : α → StoreProg β) (s : Store × Nat) :
    runStore env (p >>= f) s = runStore env (f (runStore env p s).1) (runStore env p s).2 :=
  Prog.run_bind _ p f s

theorem runStore_pure (value : α) (s : Store × Nat) :
    runStore env (pure value : StoreProg α) s = (value, s) := rfl

variable {s : Store} {n : Nat}

theorem runStore_get (key : GoString) : runStore env (getInternal key) (s, n) =
      (match env n with
        | none => .ok (s.get key)
        | some err => .error err, (s, n + 1)) := by
  rw [runStore, getInternal]
  cases h : env n with
  | none | some err => simp [Prog.perform, numbered, exec, h]

theorem runStore_put (entry : Entry) : runStore env (putInternal entry) (s, n) =
      match env n with
      | none => (.ok (), (s.put entry, n + 1))
      | some err => (.error err, (s, n + 1)) := by
  rw [runStore, putInternal]
  cases h : env n with
  | none | some err => simp [Prog.perform, numbered, exec, h]

theorem runStore_delete (key : GoString) : runStore env (deleteInternal key) (s, n) =
      match env n with
      | none => (.ok (), (s.delete key, n + 1))
      | some err => (.error err, (s, n + 1)) := by
  rw [runStore, deleteInternal]
  cases h : env n with
  | none | some err => simp [Prog.perform, numbered, exec, h]

/-- No operation from number `n` to `m` is rejected, or only the last one, with the error that is
reported. -/
def Reported (env : Nat → Option GoError) (n m : Nat) : Option GoError → Prop
  | none => n ≤ m ∧ ∀ i, n ≤ i → i < m → env i = none
  | some err => ∃ last, n ≤ last ∧ (∀ i, n ≤ i → i < last → env i = none) ∧ m = last + 1 ∧
      env last = some err

theorem reported_start (n : Nat) : Reported env n n none :=
  ⟨Nat.le_refl n, fun _ hle hlt => absurd hlt (Nat.not_lt.mpr hle)⟩

theorem reported_rejected {err : GoError} (hn : env n = some err) :
    Reported env n (n + 1) (some err) :=
  ⟨n, Nat.le_refl n, fun _ hle hlt => absurd hlt (Nat.not_lt.mpr hle), rfl, hn⟩

theorem Reported.step {n m : Nat} {failed : Option GoError} (hn : env n = none)
    (h : Reported env (n + 1) m failed) : Reported env n m failed := by
  have extend : ∀ last, (∀ i, n + 1 ≤ i → i < last → env i = none) →
      ∀ i, n ≤ i → i < last → env i = none := by
    intro last hclean i hle hlt
    rcases Nat.eq_or_lt_of_le hle with rfl | hlater
    · exact hn
    · exact hclean i hlater hlt
  cases failed with
  | none => exact ⟨Nat.le_of_succ_le h.1, extend m h.2⟩
  | some err =>
    obtain ⟨last, hle, hclean, hm, hlast⟩ := h
    exact ⟨last, Nat.le_of_succ_le hle, extend last hclean, hm, hlast⟩

theorem fillGets_run (txns : List TxnEntry) (s : Store) (n : Nat) :
    ∃ failed filled m, runStore env (fillGets txns) (s, n) = ((failed, filled), (s, m)) ∧
      Reported env n m failed ∧ (failed = none → filled = txns.map (TxnEntry.read s)) := by
  induction txns generalizing n with
  | nil => exact ⟨none, [], n, rfl, reported_start n, fun _ => rfl⟩
  | cons txn txns ih =>
    rw [fillGets, List.map_cons, TxnEntry.read]
    by_cases hget : txn.operation = .get
    · rw [if_pos hget, if_pos hget, runStore_bind, runStore_get]
      cases hn : env n with
      | some err => exact ⟨some err, txn :: txns, n + 1, rfl, reported_rejected hn, by simp⟩
      | none =>
        obtain ⟨failed, filled, m, hrun, hreported, hfilled⟩ := ih (n + 1)
        simp only [runStore_bind, hrun]
        exact ⟨failed, _, m, rfl, hreported.step hn, fun h => by rw [hfilled h]⟩
    · obtain ⟨failed, filled, m, hrun, hreported, hfilled⟩ := ih n
      rw [if_neg hget, if_neg hget, runStore_bind, hrun]
      exact ⟨failed, _, m, rfl, hreported, fun h => by rw [hfilled h]⟩

/-- How a walk from number `n` ends: the stack undoes what was done, and all entries are applied
unless an operation was rejected. -/
structure Walked (env : Nat → Option GoError) (n : Nat) (applied undone : Store)
    (r : (Option GoError × List TxnEntry) × (Store × Nat)) : Prop where
  reported : Reported env n r.2.2 r.1.1
  undoes : applyAll r.1.2 r.2.1 = undone
  applies : r.1.1 = none → r.2.1 = applied

theorem Walked.step {applied undone : Store} {r : (Option GoError × List TxnEntry) × (Store × Nat)}
    (hn : env n = none) (h : Walked env (n + 1) applied undone r) : Walked env n applied undone r :=
  ⟨h.reported.step hn, h.undoes, h.applies⟩

theorem walked_rejected {err : GoError} {applied s : Store} {stack : List TxnEntry}
    (hn : env n = some err) :
    Walked env n applied (applyAll stack s) ((some err, stack), (s, n + 1)) :=
  ⟨reported_rejected hn, rfl, nofun⟩

theorem walkTxns_run (txns stack : List TxnEntry) (s : Store) (n : Nat) :
    Walked env n (applyAll txns s) (applyAll stack s)
      (runStore env (walkTxns txns stack) (s, n)) := by
  induction txns generalizing stack s n with
  | nil => exact ⟨reported_start n, rfl, fun _ => rfl⟩
  | cons txn txns ih =>
    rw [walkTxns, applyAll_cons]
    cases hoperation : txn.operation with
    | get | list =>
      have happly : txn.apply s = s := by rw [TxnEntry.apply, hoperation]
      rw [happly]
      exact ih stack s n
    | delete =>
      have happly : txn.apply s = s.delete txn.entry.key := by rw [TxnEntry.apply, hoperation]
      simp only [happly, runStore_bind, runStore_get]
      cases hn : env n with
      | some err => exact walked_rejected hn
      | none =>
        refine Walked.step hn ?_
        cases hfound : s.get txn.entry.key with
        | none =>
          -- nothing to delete, nothing to undo
          rw [Store.delete_absent hfound]
          exact ih stack s (n + 1)
        | some entry =>
          obtain ⟨hkey, hsame⟩ := Store.put_get hfound
          simp only [runStore_bind, runStore_delete]
          cases hnext : env (n + 1) with
          | some err => exact walked_rejected hnext
          | none =>
            refine Walked.step hnext ?_
            have hwalk := ih (⟨.put, entry⟩ :: stack) (s.delete txn.entry.key) (n + 2)
            have hundo : applyAll (⟨.put, entry⟩ :: stack) (s.delete txn.entry.key) =
                applyAll stack s := by
              rw [applyAll_cons, TxnEntry.apply, ← hkey, Store.put_delete, hsame]
            rw [hundo] at hwalk
            exact hwalk
    | put =>
      have happly : txn.apply s = s.put txn.entry := by rw [TxnEntry.apply, hoperation]
      simp only [happly, runStore_bind, runStore_get]
      cases hn : env n with
      | some err => exact walked_rejected hn
      | none =>
        refine Walked.step hn ?_
        simp only [runStore_bind, runStore_put]
        cases hnext : env (n + 1) with
        | some err => exact walked_rejected hnext
        | none =>
          refine Walked.step hnext ?_
          cases hfound : s.get txn.entry.key with
          | none =>
            have hundo : applyAll (⟨.delete, ⟨txn.entry.key, []⟩⟩ :: stack)
                (s.put txn.entry) = applyAll stack s := by
              rw [applyAll_cons, TxnEntry.apply, Store.delete_put,
                Store.delete_absent hfound]
            have hwalk := ih (⟨.delete, ⟨txn.entry.key, []⟩⟩ :: stack)
              (s.put txn.entry) (n + 2)
            rw [hundo] at hwalk
            exact hwalk
          | some entry =>
            obtain ⟨hkey, hsame⟩ := Store.put_get hfound
            have hundo : applyAll (⟨.put, entry⟩ :: stack) (s.put txn.entry) =
                applyAll stack s := by
              rw [applyAll_cons, TxnEntry.apply, Store.put_put s hkey, hsame]
            have hwalk := ih (⟨.put, entry⟩ :: stack) (s.put txn.entry) (n + 2)
            rw [hundo] at hwalk
            exact hwalk

theorem rollback_run (stack : List TxnEntry) (s : Store) (n : Nat)
    (hclean : ∀ i, n ≤ i → env i = none) :
    ∃ m, n ≤ m ∧ runStore env (rollback stack) (s, n) = ([], (applyAll stack s, m)) := by
  induction stack generalizing s n with
  | nil => exact ⟨n, Nat.le_refl n, rfl⟩
  | cons txn stack ih =>
    rw [rollback, applyAll_cons]
    have hnow := hclean n (Nat.le_refl n)
    have hlater : ∀ i, n + 1 ≤ i → env i = none := fun i hi => hclean i (Nat.le_of_succ_le hi)
    cases hoperation : txn.operation with
    | get | list =>
      have happly : txn.apply s = s := by rw [TxnEntry.apply, hoperation]
      rw [happly]
      exact ih s n hclean
    | delete =>
      have happly : txn.apply s = s.delete txn.entry.key := by rw [TxnEntry.apply, hoperation]
      obtain ⟨m, hle, hrun⟩ := ih (s.delete txn.entry.key) (n + 1) hlater
      refine ⟨m, Nat.le_of_succ_le hle, ?_⟩
      simp only [happly, runStore_bind, runStore_delete, hnow, hrun, runStore_pure]
    | put =>
      have happly : txn.apply s = s.put txn.entry := by rw [TxnEntry.apply, hoperation]
      obtain ⟨m, hle, hrun⟩ := ih (s.put txn.entry) (n + 1) hlater
      refine ⟨m, Nat.le_of_succ_le hle, ?_⟩
      simp only [happly, runStore_bind, runStore_put, hnow, hrun, runStore_pure]

def rejectOnly (k : Nat) (err : GoError) : Nat → Option GoError :=
  fun n => if n = k then some err else none

theorem rejectOnly_eq_some {k n : Nat} {err err' : GoError}
    (h : rejectOnly k err n = some err') : n = k ∧ err = err' := by
  by_cases hn : n = k
  · rw [rejectOnly, if_pos hn] at h
    exact ⟨hn, Option.some.inj h⟩
  · rw [rejectOnly, if_neg hn] at h
    exact nomatch h

/-- A transaction reads its gets and applies its entries if nothing is rejected, and leaves the
store as it was if one operation is. -/
theorem handler_run (txns : List TxnEntry) (s : Store)
    (hlast : ∀ k err, env k = some err → ∀ n, k < n → env n = none) :
    ∃ errs filled after count,
      runStore env (genericTransactionHandler txns) (s, 0) = ((errs, filled), (after, count)) ∧
      ((errs = [] ∧ filled = txns.map (TxnEntry.read s) ∧ after = applyAll txns s ∧
          ∀ n, n < count → env n = none) ∨
        ∃ k err, k < count ∧ env k = some err ∧ errs = [err] ∧ after = s) := by
  obtain ⟨failed, filled, m, hfill, hreported, hfilled⟩ := @fillGets_run env txns s 0
  rw [genericTransactionHandler, runStore_bind, hfill]
  cases failed with
  | some err =>
    obtain ⟨k, -, -, hm, hk⟩ := hreported
    exact ⟨[err], filled, s, m, rfl, .inr ⟨k, err, by omega, hk, rfl, rfl⟩⟩
  | none =>
    have hread : filled = txns.map (TxnEntry.read s) := hfilled rfl
    have hwalked := @walkTxns_run env filled [] s m
    simp only [runStore_bind]
    generalize runStore env (walkTxns filled []) (s, m) = walk at hwalked ⊢
    obtain ⟨⟨failed, stack⟩, ⟨store, m'⟩⟩ := walk
    cases failed with
    | none =>
      have happlied : store = applyAll txns s := by
        rw [← applyAll_map_read s, ← hread]
        exact hwalked.applies rfl
      refine ⟨[], filled, store, m', rfl, .inl ⟨rfl, hread, happlied, ?_⟩⟩
      intro n hn
      rcases Nat.lt_or_ge n m with hbefore | hafter
      · exact hreported.2 n (Nat.zero_le n) hbefore
      · exact hwalked.reported.2 n hafter hn
    | some err =>
      have hstopped : Reported env m m' (some err) := hwalked.reported
      obtain ⟨k, -, -, hm', hk⟩ := hstopped
      have hclean : ∀ n, m' ≤ n → env n = none := fun n hn => hlast k err hk n (by omega)
      obtain ⟨count, hle, hback⟩ := rollback_run stack store m' hclean
      have hundone : applyAll stack store = s := hwalked.undoes
      simp only [runStore_bind, hback, hundone]
      exact ⟨[err], filled, s, count, rfl, .inr ⟨k, err, by omega, hk, rfl, rfl⟩⟩

end VaultProofs.AtomicTransactions
