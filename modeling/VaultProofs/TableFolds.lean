import Mathlib.Data.List.Perm.Basic
import Mathlib.Order.BoundedOrder.Lattice

/-!
Tables that are filled entry by entry. Every entry concerns one key; a lookup finds the result of
the entries for that key, in their order.
-/

namespace VaultProofs.TableFolds

variable {T κ ν ε : Type} [DecidableEq κ]

/-- `put` changes the table at the key of the entry only, as `step` says. -/
def PutsAt (look : T → κ → Option ν) (key : ε → κ) (step : Option ν → ε → Option ν)
    (put : T → ε → T) : Prop :=
  ∀ t e k, look (put t e) k = if key e = k then step (look t k) e else look t k

theorem PutsAt.look_foldl {look : T → κ → Option ν} {key : ε → κ}
    {step : Option ν → ε → Option ν} {put : T → ε → T} (h : PutsAt look key step put)
    (entries : List ε) (t : T) (k : κ) :
    look (entries.foldl put t) k = (entries.filter (key · = k)).foldl step (look t k) := by
  induction entries generalizing t with
  | nil => rfl
  | cons e entries ih =>
    rw [List.foldl_cons, ih, h]
    by_cases hk : key e = k
    · rw [if_pos hk, List.filter_cons_of_pos (by simpa using hk), List.foldl_cons]
    · rw [if_neg hk, List.filter_cons_of_neg (by simpa using hk)]

variable {S σ : Type} [SemilatticeSup S] [OrderBot S]

def joinAll (xs : List S) : S :=
  xs.foldr (· ⊔ ·) ⊥

theorem joinAll_perm {xs ys : List S} (h : xs.Perm ys) : joinAll xs = joinAll ys :=
  h.foldr_eq ⊥

theorem le_joinAll {xs : List S} {x : S} (h : x ∈ xs) : x ≤ joinAll xs := by
  induction xs with
  | nil => cases h
  | cons y xs ih =>
    rcases List.mem_cons.mp h with rfl | hmem
    · exact le_sup_left
    · exact (ih hmem).trans le_sup_right

theorem view_foldl {view : σ → S} {weight : ε → S} {step : σ → ε → σ}
    (h : ∀ x e, view (step x e) = view x ⊔ weight e) (entries : List ε) (x : σ) :
    view (entries.foldl step x) = view x ⊔ joinAll (entries.map weight) := by
  induction entries generalizing x with
  | nil => simp [joinAll]
  | cons e entries ih =>
    rw [List.foldl_cons, ih, h, sup_assoc]
    rfl

end VaultProofs.TableFolds
