import Mathlib

/-!
Finite maps with a counter of their size, or of the total weight of their values: what a change at
one key does to the count.
-/

namespace VaultProofs.CountedMaps

variable {α : Type} [DecidableEq α] {β : α → Type}

theorem length_keys_of_agree {s t : AList β} {a : α} (h : ∀ x, x ≠ a → (x ∈ t ↔ x ∈ s)) :
    (t.keys.length : Int) - s.keys.length = (if a ∈ t then 1 else 0) - if a ∈ s then 1 else 0 := by
  have hsize : ∀ u : AList β, (u.keys.length : Int) =
      (u.keys.toFinset.erase a).card + if a ∈ u then 1 else 0 := by
    intro u
    rw [← List.toFinset_card_of_nodup u.keys_nodup]
    by_cases hmem : a ∈ u
    · have hkeys : a ∈ u.keys.toFinset := List.mem_toFinset.mpr (AList.mem_keys.mpr hmem)
      rw [if_pos hmem, ← Finset.card_erase_add_one hkeys]
      omega
    have hkeys : a ∉ u.keys.toFinset :=
      fun hin => hmem (AList.mem_keys.mp (List.mem_toFinset.mp hin))
    rw [if_neg hmem, Finset.erase_eq_of_notMem hkeys]
    omega
  have hrest : t.keys.toFinset.erase a = s.keys.toFinset.erase a := by
    ext x
    rw [Finset.mem_erase, Finset.mem_erase, List.mem_toFinset, List.mem_toFinset]
    exact and_congr_right (h x)
  rw [hsize t, hsize s, hrest]
  omega

theorem mem_of_lookup {s : AList β} {a : α} {b : β a} (h : s.lookup a = some b) : a ∈ s :=
  AList.lookup_isSome.mp (by rw [h]; rfl)

def total {β : Type} (weight : β → Nat) (s : AList (fun _ : α => β)) : Nat :=
  (s.entries.map fun entry => weight entry.2).sum

variable {γ : Type} (weight : γ → Nat) {s : AList (fun _ : α => γ)} {a : α}

theorem lookup_insert_cases {x : α} {b c : γ} (h : (s.insert a b).lookup x = some c) :
    (x = a ∧ c = b) ∨ (x ≠ a ∧ s.lookup x = some c) := by
  by_cases hx : x = a
  · subst hx
    rw [AList.lookup_insert] at h
    exact .inl ⟨rfl, (Option.some.inj h).symm⟩
  · rw [AList.lookup_insert_ne hx] at h
    exact .inr ⟨hx, h⟩

theorem total_erase {b : γ} (h : s.lookup a = some b) :
    total weight (s.erase a) + weight b = total weight s := by
  have hkeys : a ∈ s.entries.keys := AList.mem_keys.mpr (mem_of_lookup h)
  obtain ⟨c, before, rest, hnot, hentries, hkerase⟩ := List.exists_of_kerase hkeys
  have hlookup : s.lookup a = some c := by
    refine AList.mem_lookup_iff.mpr ?_
    rw [hentries]
    exact List.mem_append_right _ (.head _)
  cases h.symm.trans hlookup
  have herase : (s.erase a).entries = before ++ rest := hkerase
  rw [total, total, herase, hentries, List.map_append, List.map_append, List.map_cons,
    List.sum_append, List.sum_append, List.sum_cons]
  show _ + weight b = _ + (weight b + _)
  omega

theorem total_erase_absent (h : a ∉ s) : total weight (s.erase a) = total weight s := by
  have herase : (s.erase a).entries = s.entries :=
    List.kerase_of_notMem_keys fun hmem => h (AList.mem_keys.mp hmem)
  rw [total, total, herase]

theorem total_insert (b : γ) : total weight (s.insert a b) = weight b + total weight (s.erase a) :=
  rfl

end VaultProofs.CountedMaps
