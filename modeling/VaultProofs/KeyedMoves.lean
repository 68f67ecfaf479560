import Mathlib.Logic.Function.Basic
import Mathlib.Logic.Relation

/-!
Tables that change one entry at a time. `M r key value` says that the table `r` may get `value` at
`key`; a table leads to another by such moves.
-/

namespace VaultProofs.KeyedMoves

variable {κ ν : Type} [DecidableEq κ]

/-- One move: one entry of the table is replaced. -/
def Change (M : (κ → ν) → κ → ν → Prop) (r r' : κ → ν) : Prop :=
  ∃ key value, M r key value ∧ r' = Function.update r key value

def Leads (M : (κ → ν) → κ → ν → Prop) : (κ → ν) → (κ → ν) → Prop :=
  Relation.ReflTransGen (Change M)

variable {M : (κ → ν) → κ → ν → Prop} {r r' r'' : κ → ν}

theorem Leads.refl (r : κ → ν) : Leads M r r := Relation.ReflTransGen.refl

theorem Leads.trans (h : Leads M r r') (h' : Leads M r' r'') : Leads M r r'' :=
  Relation.ReflTransGen.trans h h'

theorem leads_of_move {key : κ} {value : ν} (h : M r key value) :
    Leads M r (Function.update r key value) :=
  Relation.ReflTransGen.single ⟨key, value, h, rfl⟩

theorem Leads.keeps {K : (κ → ν) → Prop}
    (hmove : ∀ r key value, K r → M r key value → K (Function.update r key value))
    (h : Leads M r r') (hr : K r) : K r' := by
  induction h with
  | refl => exact hr
  | tail _ hchange ih =>
    obtain ⟨key, value, hkey, rfl⟩ := hchange
    exact hmove _ key value ih hkey

theorem Leads.keeps_at {key : κ} {K : ν → Prop}
    (hmove : ∀ r value, K (r key) → M r key value → K value)
    (h : Leads M r r') (hr : K (r key)) : K (r' key) := by
  refine h.keeps (K := fun r => K (r key)) ?_ hr
  intro r key' value hK hM
  by_cases hkey : key = key'
  · subst hkey
    rw [Function.update_self]
    exact hmove r value hK hM
  · rw [Function.update_of_ne hkey]
    exact hK

end VaultProofs.KeyedMoves
