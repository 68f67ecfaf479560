import Mathlib.Data.List.Basic
import Mathlib.Data.List.Nodup

/-!
Lists of elements with keys: the element of a key is replaced in place or appended, and elements are
deleted in place while an index runs over the list.
-/

namespace VaultProofs.KeyedLists

variable {α κ : Type} [DecidableEq κ] {key : α → κ}

/-- Replace the first element with the key of `x`, or append `x`. -/
def upsert (key : α → κ) (x : α) (xs : List α) : List α :=
  match xs.findIdx? (fun y => key y = key x) with
  | none => xs ++ [x]
  | some i => xs.set i x

/-- Delete from position `i` on: what follows moves down, and the position is visited again. -/
def deleteFrom (p : α → Bool) (xs : List α) (i : Nat) : List α :=
  if h : i < xs.length then
    if p xs[i] then deleteFrom p (xs.eraseIdx i) i else deleteFrom p xs (i + 1)
  else xs
termination_by xs.length - i
decreasing_by
  · rw [List.length_eraseIdx_of_lt h]
    omega
  · omega

theorem upsert_nil (x : α) : upsert key x [] = [x] := rfl

theorem upsert_cons (x y : α) (xs : List α) :
    upsert key x (y :: xs) = if key y = key x then x :: xs else y :: upsert key x xs := by
  by_cases hkey : key y = key x
  · simp [upsert, List.findIdx?_cons, hkey]
  rw [if_neg hkey, upsert, upsert, List.findIdx?_cons]
  cases xs.findIdx? (fun y => key y = key x) with
  | none | some i => simp [hkey]

theorem find?_upsert (x : α) (xs : List α) (k : κ) :
    (upsert key x xs).find? (key · = k) =
      if key x = k then some x else xs.find? (key · = k) := by
  induction xs with
  | nil =>
    by_cases hx : key x = k
    · simp [upsert_nil, hx]
    · simp [upsert_nil, hx]
  | cons y xs ih =>
    rw [upsert_cons]
    by_cases hkey : key y = key x
    · rw [if_pos hkey]
      by_cases hx : key x = k
      · simp [hx]
      · have hy : key y ≠ k := hkey ▸ hx
        simp [hx, hy]
    rw [if_neg hkey, List.find?_cons, List.find?_cons, ih]
    by_cases hy : key y = k
    · have hx : key x ≠ k := fun hx => hkey (hy.trans hx.symm)
      simp [hy, hx]
    · simp [hy]

theorem mem_upsert {x y : α} {xs : List α} (h : y ∈ upsert key x xs) : y = x ∨ y ∈ xs := by
  induction xs with
  | nil => exact .inl (List.mem_singleton.mp h)
  | cons z xs ih =>
    rw [upsert_cons] at h
    by_cases hkey : key z = key x
    · rw [if_pos hkey] at h
      exact (List.mem_cons.mp h).imp_right (List.mem_cons_of_mem z)
    rw [if_neg hkey] at h
    rcases List.mem_cons.mp h with rfl | hmem
    · exact .inr (.head _)
    · exact (ih hmem).imp_right (List.mem_cons_of_mem z)

theorem nodup_upsert {x : α} {xs : List α} (h : (xs.map key).Nodup) :
    ((upsert key x xs).map key).Nodup := by
  induction xs with
  | nil => exact List.nodup_singleton _
  | cons y xs ih =>
    rw [List.map_cons, List.nodup_cons] at h
    rw [upsert_cons]
    by_cases hkey : key y = key x
    · rw [if_pos hkey, List.map_cons, List.nodup_cons, ← hkey]
      exact h
    rw [if_neg hkey, List.map_cons, List.nodup_cons]
    refine ⟨fun hmem => ?_, ih h.2⟩
    obtain ⟨z, hz, hzy⟩ := List.mem_map.mp hmem
    rcases mem_upsert hz with rfl | hz
    · exact hkey hzy.symm
    · exact h.1 (List.mem_map.mpr ⟨z, hz, hzy⟩)

theorem deleteFrom_eq (p : α → Bool) (xs : List α) (i : Nat) :
    deleteFrom p xs i = xs.take i ++ (xs.drop i).filter (!p ·) := by
  induction xs, i using deleteFrom.induct p with
  | case1 xs i hlt hp ih =>
    have htake : (xs.eraseIdx i).take i = xs.take i := by
      rw [List.eraseIdx_eq_take_drop_succ, List.take_append_of_le_length (by simp; omega),
        List.take_take, Nat.min_self]
    have hdrop : (xs.eraseIdx i).drop i = xs.drop (i + 1) := by
      rw [List.eraseIdx_eq_take_drop_succ, List.drop_append_of_le_length (by simp; omega)]
      simp
    have hhere : xs.drop i = xs[i] :: xs.drop (i + 1) := List.drop_eq_getElem_cons hlt
    rw [deleteFrom, dif_pos hlt, if_pos hp, ih, htake, hdrop, hhere,
      List.filter_cons_of_neg (by simp [hp])]
  | case2 xs i hlt hp ih =>
    have hhere : xs.drop i = xs[i] :: xs.drop (i + 1) := List.drop_eq_getElem_cons hlt
    have htake : xs.take (i + 1) = xs.take i ++ [xs[i]] := List.take_succ_eq_append_getElem hlt
    rw [deleteFrom, dif_pos hlt, if_neg hp, ih, hhere, htake,
      List.filter_cons_of_pos (by simpa using hp), List.append_assoc, List.singleton_append]
  | case3 xs i hge =>
    rw [deleteFrom, dif_neg hge, List.take_of_length_le (by omega),
      List.drop_of_length_le (by omega), List.filter_nil, List.append_nil]

theorem find?_filter_keys (xs : List α) (keep : κ → Bool) (k : κ) :
    (xs.filter (keep <| key ·)).find? (key · = k) =
      if keep k then xs.find? (key · = k) else none := by
  induction xs with
  | nil => simp
  | cons y xs ih =>
    by_cases hy : key y = k
    · by_cases hk : keep k = true
      · simp [hy, hk]
      · simp_all
    · by_cases hk : keep (key y) = true
      · simp_all
      · simp_all

/-- A table whose rows have distinct keys. -/
structure Table (key : α → κ) where
  rows : List α
  nodup : (rows.map key).Nodup

namespace Table

variable {t : Table key} {x y : α} {k : κ}

def empty : Table key := ⟨[], List.nodup_nil⟩

def find (t : Table key) (k : κ) : Option α :=
  t.rows.find? (key · = k)

def upsert (t : Table key) (x : α) : Table key :=
  ⟨KeyedLists.upsert key x t.rows, nodup_upsert t.nodup⟩

def erase (t : Table key) (k : κ) : Table key :=
  ⟨t.rows.filter (key · ≠ k), t.nodup.sublist (List.filter_sublist.map key)⟩

theorem key_of_find (h : t.find k = some x) : key x = k := by
  simpa using List.find?_some h

theorem mem_of_find (h : t.find k = some x) : x ∈ t.rows :=
  List.mem_of_find?_eq_some h

theorem find_key_iff : t.find (key x) = some x ↔ x ∈ t.rows := by
  refine ⟨mem_of_find, fun hmem => ?_⟩
  cases hfind : t.find (key x) with
  | none => exact absurd (List.find?_eq_none.mp hfind x hmem) (by simp)
  | some y =>
    rw [List.inj_on_of_nodup_map t.nodup (mem_of_find hfind) hmem (key_of_find hfind)]

theorem find_eq_some_iff : t.find k = some x ↔ x ∈ t.rows ∧ key x = k := by
  constructor
  · exact fun h => ⟨mem_of_find h, key_of_find h⟩
  · rintro ⟨hmem, rfl⟩
    exact find_key_iff.mpr hmem

omit [DecidableEq κ] in
theorem eq_of_key (hx : x ∈ t.rows) (hy : y ∈ t.rows) (h : key x = key y) : x = y :=
  List.inj_on_of_nodup_map t.nodup hx hy h

theorem find_upsert (t : Table key) (x : α) (k : κ) :
    (t.upsert x).find k = if key x = k then some x else t.find k :=
  find?_upsert x t.rows k

theorem find_erase (t : Table key) (k k' : κ) :
    (t.erase k).find k' = if k' = k then none else t.find k' := by
  have h : (t.erase k).find k' = if decide (k' ≠ k) = true then t.find k' else none :=
    find?_filter_keys t.rows (fun other => decide (other ≠ k)) k'
  rw [h]
  by_cases hk : k' = k
  · simp [hk]
  · simp [hk]

end Table

end VaultProofs.KeyedLists
