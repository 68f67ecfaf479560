import Mathlib.Data.List.Sort
import Mathlib.Data.Set.Finite.Lemmas

/-!
Choosing the member of a finite set with the greatest rank. Ranks are linearly ordered and tell
members apart, so there is one choice: the last element when sorted by rank.
-/

namespace VaultProofs.RankedChoices

variable {α β : Type} [LinearOrder β]

def Best (rank : α → β) (S : Set α) (x : α) : Prop :=
  x ∈ S ∧ ∀ y ∈ S, y ≠ x → rank y < rank x

def Chosen (rank : α → β) (S : Set α) : Option α → Prop
  | none => S = ∅
  | some x => Best rank S x

variable {rank : α → β} {S : Set α}

theorem Best.unique {x y : α} (hx : Best rank S x) (hy : Best rank S y) : x = y := by
  by_contra hne
  exact lt_asymm (hx.2 y hy.1 (Ne.symm hne)) (hy.2 x hx.1 hne)

theorem Best.le {x y : α} (hx : Best rank S x) (hy : y ∈ S) : rank y ≤ rank x := by
  rcases eq_or_ne y x with rfl | hne
  · exact le_rfl
  · exact (hx.2 y hy hne).le

theorem Chosen.unique {c d : Option α} (hc : Chosen rank S c) (hd : Chosen rank S d) : c = d := by
  cases c with
  | none =>
    cases d with
    | none => rfl
    | some y => exact ((hc ▸ hd.1 : y ∈ (∅ : Set α))).elim
  | some x =>
    cases d with
    | none => exact ((hd ▸ hc.1 : x ∈ (∅ : Set α))).elim
    | some y => rw [Best.unique hc hd]

theorem best_of_injOn {x : α} (hinj : Set.InjOn rank S) (hx : x ∈ S)
    (hle : ∀ y ∈ S, rank y ≤ rank x) : Best rank S x := by
  refine ⟨hx, ?_⟩
  intro y hy hne
  exact lt_of_le_of_ne (hle y hy) fun heq => hne (hinj hy hx heq)

theorem Chosen.of_subset {S T : Set α} {c : Option α} (hc : Chosen rank T c)
    (hinj : Set.InjOn rank S) (hsub : T ⊆ S) (hbelow : ∀ x ∈ S, ∃ y ∈ T, rank x ≤ rank y) :
    Chosen rank S c := by
  cases c with
  | none =>
    have hempty : T = ∅ := hc
    apply Set.eq_empty_of_forall_notMem
    intro x hx
    obtain ⟨y, hy, _⟩ := hbelow x hx
    rw [hempty] at hy
    exact hy
  | some x =>
    have hbest : Best rank T x := hc
    apply best_of_injOn hinj (hsub hbest.1)
    intro y hy
    obtain ⟨z, hz, hyz⟩ := hbelow y hy
    exact hyz.trans (hbest.le hz)

/-- The choice under one rank is that under another unless the best member under the other is
outranked. -/
theorem Chosen.iff_not_outranked {rank other : α → β} {c : Option α} (hc : Chosen rank S c)
    (hfinite : S.Finite) (hinj : Set.InjOn other S) :
    Chosen other S c ↔ ∀ x, Best other S x → ∀ y ∈ S, rank y ≤ rank x := by
  constructor
  · intro hother x hx y hy
    obtain rfl : c = some x := hother.unique hx
    exact Best.le hc hy
  intro h
  cases c with
  | none => exact hc
  | some x =>
    have hbest : Best rank S x := hc
    obtain ⟨z, hz, hmax⟩ := Set.exists_max_image S other hfinite ⟨x, hbest.1⟩
    have hother : Best other S z := best_of_injOn hinj hz hmax
    obtain rfl : x = z := by
      by_contra hne
      have hlt := hbest.2 z hz (Ne.symm hne)
      exact absurd (h z hother x hbest.1) (not_le.mpr hlt)
    exact hother

theorem chosen_getLast_insertionSort {r : α → α → Prop} [DecidableRel r]
    (hr : ∀ x y, r x y ↔ rank x ≤ rank y) {members : List α}
    (hinj : Set.InjOn rank {x | x ∈ members}) :
    Chosen rank {x | x ∈ members} (members.insertionSort r).getLast? := by
  have : Std.Total r := ⟨fun x y => by rw [hr, hr]; exact le_total _ _⟩
  have : IsTrans α r := ⟨fun x y z hxy hyz => by
    rw [hr] at hxy hyz ⊢
    exact hxy.trans hyz⟩
  by_cases hnil : members.insertionSort r = []
  · rw [hnil]
    apply Set.eq_empty_of_forall_notMem
    intro x hx
    have hmem := (List.mem_insertionSort r).mpr hx
    rw [hnil] at hmem
    cases hmem
  rw [List.getLast?_eq_getLast_of_ne_nil hnil]
  apply best_of_injOn hinj
  · exact (List.mem_insertionSort r).mp (List.getLast_mem hnil)
  intro y hy
  rw [← hr]
  exact (List.pairwise_insertionSort r members).rel_getLast
    ((List.mem_insertionSort r).mpr hy)

end VaultProofs.RankedChoices
