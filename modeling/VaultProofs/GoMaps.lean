import Mathlib.Data.List.Basic

/-!
The order in which a map is walked is not fixed: a walk goes over what the map holds in some order.
-/

namespace VaultProofs.GoMaps

structure MapOrder (α : Type) where
  arrange : List α → List α
  perm : ∀ keys, (arrange keys).Perm keys

def MapOrder.asStored {α : Type} : MapOrder α := ⟨id, fun _ => .refl _⟩

end VaultProofs.GoMaps
