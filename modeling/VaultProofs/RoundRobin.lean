import Mathlib.Data.List.Perm.Basic

/-!
Turns in a list of slots with a cursor: the slots from the cursor on come first, then those before
it.
-/

namespace VaultProofs.RoundRobin

variable {α : Type}

/-- The order in which the slots have their turns after the first `cursor` of them. -/
def turns (slots : List α) (cursor : Nat) : List α :=
  slots.drop cursor ++ slots.take cursor

theorem turns_perm (slots : List α) (cursor : Nat) : (turns slots cursor).Perm slots := by
  have happend : (slots.drop cursor ++ slots.take cursor).Perm
      (slots.take cursor ++ slots.drop cursor) := List.perm_append_comm
  rwa [List.take_append_drop] at happend

theorem turns_split (before rest : List α) (x : α) :
    turns (before ++ x :: rest) before.length = x :: (rest ++ before) := by
  rw [turns, List.drop_left, List.take_left]
  rfl

theorem turns_all (slots : List α) : turns slots slots.length = slots := by
  rw [turns, List.drop_length, List.take_length, List.nil_append]

variable {slots : List α}

/-- The slot at the cursor, or the first one if the cursor is at the end, is served; it then has its
turn last, or is dropped. -/
theorem turns_next {cursor i : Nat} (hcursor : cursor ≤ slots.length)
    (hi : i = cursor % slots.length) {x : α} (hx : slots[i]? = some x) :
    ∃ rest, turns slots cursor = x :: rest ∧ turns slots (i + 1) = rest ++ [x] ∧
      turns (slots.eraseIdx i) (if 0 < i then i else (slots.eraseIdx i).length) = rest := by
  obtain ⟨hlt, hget⟩ := List.getElem?_eq_some_iff.mp hx
  obtain ⟨before, rest, hslots, hlength⟩ : ∃ before rest, slots = before ++ x :: rest ∧
      before.length = i := by
    refine ⟨slots.take i, slots.drop (i + 1), ?_, List.length_take_of_le (by omega)⟩
    rw [← hget, List.getElem_cons_drop, List.take_append_drop]
  subst hslots
  refine ⟨rest ++ before, ?_, ?_, ?_⟩
  · by_cases hend : cursor = (before ++ x :: rest).length
    · have hzero : i = 0 := by rw [hi, hend, Nat.mod_self]
      have hnil : before = [] := List.length_eq_zero_iff.mp (by omega)
      subst hnil
      rw [hend, turns_all, List.append_nil]
      rfl
    · rw [Nat.mod_eq_of_lt (by omega)] at hi
      rw [← hi, ← hlength, turns_split]
  · have hsnoc : before ++ x :: rest = (before ++ [x]) ++ rest := by simp
    have hcount : before.length + 1 = (before ++ [x]).length := by simp
    rw [turns, ← hlength, hsnoc, hcount, List.drop_left, List.take_left, List.append_assoc]
  rw [← hlength, List.eraseIdx_append_of_length_le (Nat.le_refl _), Nat.sub_self,
    List.eraseIdx_zero, List.tail_cons]
  by_cases hpos : 0 < before.length
  · rw [if_pos hpos, turns, List.drop_left, List.take_left]
  have hnil : before = [] := List.length_eq_zero_iff.mp (by omega)
  subst hnil
  rw [if_neg hpos, turns_all, List.append_nil]
  rfl

variable {cursor : Nat}

theorem turns_append (h : cursor ≤ slots.length) (x : α) :
    turns (slots ++ [x]) cursor = slots.drop cursor ++ x :: slots.take cursor := by
  rw [turns, List.drop_append_of_le_length h, List.take_append_of_le_length h, List.append_assoc]
  rfl

theorem turns_sublist_append (h : cursor ≤ slots.length) (x : α) :
    (turns slots cursor).Sublist (turns (slots ++ [x]) cursor) := by
  rw [turns_append h, turns]
  exact List.Sublist.append_left (List.sublist_cons_self x _) _

def Before (q r : α) (order : List α) : Prop :=
  [q, r].Sublist order

variable {q r : α}

theorem before_append {order : List α} (hq : q ∈ order) (rest : List α) :
    Before q r (order ++ r :: rest) :=
  List.Sublist.append (List.singleton_sublist.mpr hq)
    (List.Sublist.cons_cons r (List.nil_sublist rest))

theorem Before.tail {q r x : α} {order : List α} (h : Before q r (x :: order)) (hne : x ≠ q) :
    Before q r order := by
  cases h with
  | cons _ hsub => exact hsub
  | cons_cons _ hsub => exact absurd rfl hne

/-- One slot has its turn before another, if that one has a turn at all. -/
def Ahead (q r : α) (order : List α) : Prop :=
  r ∈ order → Before q r order

theorem ahead_of_served {rest next : List α} (hnodup : (r :: rest).Nodup) (hq : q ∈ rest)
    (hnext : next = rest ++ [r] ∨ next = rest) : Ahead q r next := by
  intro hr
  rcases hnext with rfl | rfl
  · exact before_append hq []
  · exact absurd hr (List.nodup_cons.mp hnodup).1

theorem Ahead.other_served {q r x : α} {rest next : List α} (h : Ahead q r (x :: rest))
    (hq : x ≠ q) (hr : x ≠ r) (hnext : next = rest ++ [x] ∨ next = rest) : Ahead q r next := by
  intro hmem
  have hrest : r ∈ rest := by
    rcases hnext with rfl | rfl
    · rcases List.mem_append.mp hmem with hmem | hmem
      · exact hmem
      · exact absurd (List.mem_singleton.mp hmem).symm hr
    · exact hmem
  have hbefore := (h (List.mem_cons_of_mem x hrest)).tail hq
  rcases hnext with rfl | rfl
  · exact hbefore.trans (List.sublist_append_left _ _)
  · exact hbefore

theorem not_ahead_head {rest : List α} (hnodup : (r :: rest).Nodup) (hne : r ≠ q) :
    ¬ Ahead q r (r :: rest) := by
  intro h
  have hmem : r ∈ rest := ((h (.head _)).tail hne).subset (by simp)
  exact (List.nodup_cons.mp hnodup).1 hmem

theorem Ahead.other_added {q r x : α} (h : Ahead q r (turns slots cursor))
    (hcursor : cursor ≤ slots.length) (hr : x ≠ r) :
    Ahead q r (turns (slots ++ [x]) cursor) := by
  intro hmem
  have hold : r ∈ turns slots cursor := by
    rcases List.mem_append.mp ((turns_perm _ _).mem_iff.mp hmem) with hmem | hmem
    · exact (turns_perm _ _).mem_iff.mpr hmem
    · exact absurd (List.mem_singleton.mp hmem).symm hr
  exact (h hold).trans (turns_sublist_append hcursor x)

/-- A slot is added behind those whose turn is still to come in this pass. -/
theorem ahead_of_added (hcursor : cursor ≤ slots.length) (hq : q ∈ slots.drop cursor) :
    Ahead q r (turns (slots ++ [r]) cursor) := by
  intro _
  rw [turns_append hcursor]
  exact before_append hq _

end VaultProofs.RoundRobin
