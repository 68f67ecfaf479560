import Mathlib.Data.List.Infix

/-!
The longest start of a list that has a property, searched from the whole list down.
-/

namespace VaultProofs.LongestPrefixes

variable {α : Type} {p : List α → Bool} {xs start : List α}

def longestWith (p : List α → Bool) (xs : List α) : Option (List α) :=
  xs.inits.reverse.find? p

theorem pairwise_inits (xs : List α) :
    xs.inits.Pairwise fun start start' => start.length < start'.length := by
  induction xs with
  | nil => simp
  | cons x xs ih =>
    rw [List.inits_cons, List.pairwise_cons, List.pairwise_map]
    exact ⟨by simp, ih.imp fun h => by simpa using h⟩

theorem longestWith_eq_some (h : longestWith p xs = some start) :
    start <+: xs ∧ p start = true ∧
      ∀ start', start' <+: xs → p start' = true → start'.length ≤ start.length := by
  have hsorted := List.pairwise_reverse.mpr (pairwise_inits xs)
  obtain ⟨hfound, longer, shorter, hsplit, hnone⟩ := List.find?_eq_some_iff_append.mp h
  have hmem : ∀ start', start' <+: xs ↔ start' ∈ xs.inits.reverse := by simp
  refine ⟨?_, hfound, ?_⟩
  · rw [hmem, hsplit]
    simp
  intro start' hstarts hp
  rw [hmem, hsplit, List.mem_append, List.mem_cons] at hstarts
  rw [hsplit, List.pairwise_append] at hsorted
  rcases hstarts with hlonger | rfl | hshorter
  · have := hnone start' hlonger
    rw [hp] at this
    cases this
  · exact le_rfl
  · exact (List.rel_of_pairwise_cons hsorted.2.1 hshorter).le

theorem longestWith_eq_none (h : longestWith p xs = none) (hstarts : start <+: xs) :
    p start = false :=
  Bool.eq_false_iff.mpr (List.find?_eq_none.mp h start (by simpa using hstarts))

end VaultProofs.LongestPrefixes
