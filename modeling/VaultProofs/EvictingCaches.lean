import Mathlib.Logic.Function.Basic

/-!
A cache that may forget any entry whenever it is used, but never invents or changes one.
-/

namespace VaultProofs.EvictingCaches

/-- A cache with its operations, for any rule by which entries are evicted. -/
structure EvictingCache (K V : Type) where
  Carrier : Type
  new : Carrier
  get : Carrier → K → Option V × Carrier
  add : Carrier → K → V → Carrier
  remove : Carrier → K → Carrier
  purge : Carrier → Carrier
  get_new : ∀ key, (get new key).1 = none
  get_get : ∀ c key other value,
    (get (get c key).2 other).1 = some value → (get c other).1 = some value
  get_add : ∀ c key added other value, (get (add c key added) other).1 = some value →
    (other = key ∧ value = added) ∨ (other ≠ key ∧ (get c other).1 = some value)
  get_remove : ∀ c key other value, (get (remove c key) other).1 = some value →
    other ≠ key ∧ (get c other).1 = some value
  get_purge : ∀ c key, (get (purge c) key).1 = none

namespace EvictingCache

variable {K V : Type} {cache : EvictingCache K V}

/-- At the keys of interest the cache holds what the function has, or nothing. -/
def Reflects (cache : EvictingCache K V) (asked : K → Prop) (f : K → V)
    (c : cache.Carrier) : Prop :=
  ∀ key value, asked key → (cache.get c key).1 = some value → value = f key

variable {asked : K → Prop} {f g : K → V} {c : cache.Carrier}

theorem reflects_new (asked : K → Prop) (f : K → V) : cache.Reflects asked f cache.new := by
  intro key value _ hget
  rw [cache.get_new] at hget
  exact nomatch hget

theorem reflects_purge (asked : K → Prop) (f : K → V) (c : cache.Carrier) :
    cache.Reflects asked f (cache.purge c) := by
  intro key value _ hget
  rw [cache.get_purge] at hget
  exact nomatch hget

theorem Reflects.get (h : cache.Reflects asked f c) (key : K) :
    cache.Reflects asked f (cache.get c key).2 :=
  fun other value hasked hget => h other value hasked (cache.get_get c key other value hget)

theorem Reflects.congr (h : cache.Reflects asked f c) (hsame : ∀ key, asked key → g key = f key) :
    cache.Reflects asked g c :=
  fun key value hasked hget => (h key value hasked hget).trans (hsame key hasked).symm

theorem Reflects.add (h : cache.Reflects asked f c) {key : K} {value : V} (hnew : g key = value)
    (hsame : ∀ other, other ≠ key → g other = f other) :
    cache.Reflects asked g (cache.add c key value) := by
  intro other value' hasked hget
  rcases cache.get_add c key value other value' hget with ⟨rfl, rfl⟩ | ⟨hne, hold⟩
  · exact hnew.symm
  · rw [hsame other hne]
    exact h other value' hasked hold

theorem Reflects.remove (h : cache.Reflects asked f c) {key : K}
    (hsame : ∀ other, other ≠ key → g other = f other) :
    cache.Reflects asked g (cache.remove c key) := by
  intro other value hasked hget
  obtain ⟨hne, hold⟩ := cache.get_remove c key other value hget
  rw [hsame other hne]
  exact h other value hasked hold

end EvictingCache

/-- Contents, and for each operation to come the keys that are evicted with it. -/
structure Scheduled (K V : Type) where
  contents : K → Option V
  evictions : List (K → Bool)

namespace Scheduled

variable {K V : Type}

def evict (c : Scheduled K V) : Scheduled K V :=
  match c.evictions with
  | [] => c
  | evicted :: evictions => ⟨fun key => if evicted key then none else c.contents key, evictions⟩

theorem contents_evict {c : Scheduled K V} {key : K} {value : V}
    (h : c.evict.contents key = some value) : c.contents key = some value := by
  obtain ⟨contents, _ | ⟨evicted, evictions⟩⟩ := c
  · exact h
  · by_cases hkey : evicted key
    · simp [evict, hkey] at h
    · simpa [evict, hkey] using h

end Scheduled

/-- A cache that makes the given evictions, one with each operation. -/
def scheduled {K V : Type} [DecidableEq K] (evictions : List (K → Bool)) : EvictingCache K V where
  Carrier := Scheduled K V
  new := ⟨fun _ => none, evictions⟩
  get c key := (c.contents key, c.evict)
  add c key value := Scheduled.evict { c with contents := Function.update c.contents key (some value) }
  remove c key := Scheduled.evict { c with contents := Function.update c.contents key none }
  purge c := { c with contents := fun _ => none }
  get_new _ := rfl
  get_get _ _ _ _ := Scheduled.contents_evict
  get_add c key added other value hget := by
    have hupdated : Function.update c.contents key (some added) other = some value :=
      Scheduled.contents_evict hget
    by_cases hkey : other = key
    · rw [hkey, Function.update_self] at hupdated
      exact .inl ⟨hkey, (Option.some.inj hupdated).symm⟩
    · rw [Function.update_of_ne hkey] at hupdated
      exact .inr ⟨hkey, hupdated⟩
  get_remove c key other value hget := by
    have hupdated : Function.update c.contents key none other = some value :=
      Scheduled.contents_evict hget
    by_cases hkey : other = key
    · rw [hkey, Function.update_self] at hupdated
      exact nomatch hupdated
    · rw [Function.update_of_ne hkey] at hupdated
      exact ⟨hkey, hupdated⟩
  get_purge _ _ := rfl

end VaultProofs.EvictingCaches
