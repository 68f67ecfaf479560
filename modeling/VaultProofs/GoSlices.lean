import Mathlib.Data.Int.Range

/-!
Slices under machine indices, where an index out of range is no value, and slices of numbered
things: the slot of number `v` is `v - base`.
-/

namespace VaultProofs.GoSlices

variable {α : Type}

/-- The numbers a loop from `lo` up to `hi` goes through. -/
def upTo (lo hi : Int) : List Int :=
  Int.range lo (hi + 1)

theorem mem_upTo {lo hi v : Int} : v ∈ upTo lo hi ↔ lo ≤ v ∧ v ≤ hi := by
  rw [upTo, Int.mem_range_iff]
  omega

theorem upTo_of_lt {lo hi : Int} (h : hi < lo) : upTo lo hi = [] := by
  have hlength : (hi + 1 - lo).toNat = 0 := by omega
  rw [upTo, Int.range, hlength]
  rfl

theorem upTo_cons {lo hi : Int} (h : lo ≤ hi) : upTo lo hi = lo :: upTo (lo + 1) hi := by
  have hlength : (hi + 1 - lo).toNat = (hi + 1 - (lo + 1)).toNat + 1 := by omega
  rw [upTo, Int.range, hlength, List.range_succ_eq_map, List.map_cons, List.map_map, upTo, Int.range]
  congr 1
  · exact Int.add_zero lo
  · refine List.map_congr_left fun k _ => ?_
    simp only [Function.comp_apply]
    omega

def slot (xs : List α) (i : Int) : Option α :=
  if 0 ≤ i then xs[i.toNat]? else none

def store (xs : List α) (i : Int) (value : α) : Option (List α) :=
  if 0 ≤ i ∧ i < xs.length then some (xs.set i.toNat value) else none

def sliceFrom (xs : List α) (i : Int) : Option (List α) :=
  if 0 ≤ i ∧ i ≤ xs.length then some (xs.drop i.toNat) else none

/-- A new slice of a length, with the old one copied to its front. -/
def resize (zero : α) (xs : List α) (length : Int) : List α :=
  (xs ++ List.replicate length.toNat zero).take length.toNat

variable {xs : List α} {i : Int} {value : α}

theorem slot_of_lt (h : slot xs i = some value) : 0 ≤ i ∧ i < xs.length := by
  rw [slot] at h
  split at h
  · obtain ⟨hlt, -⟩ := List.getElem?_eq_some_iff.mp h
    omega
  · cases h

theorem store_eq_some (h0 : 0 ≤ i) (h : i < xs.length) (value : α) :
    store xs i value = some (xs.set i.toNat value) :=
  if_pos ⟨h0, h⟩

theorem sliceFrom_eq_some (h0 : 0 ≤ i) (h : i ≤ xs.length) :
    sliceFrom xs i = some (xs.drop i.toNat) :=
  if_pos ⟨h0, h⟩

theorem slot_set {i j : Int} (hi : 0 ≤ i) (h : i < xs.length) (value : α) :
    slot (xs.set i.toNat value) j = if j = i then some value else slot xs j := by
  rw [slot, slot]
  by_cases hj : 0 ≤ j
  · rw [if_pos hj, if_pos hj, List.getElem?_set]
    by_cases heq : j = i
    · subst heq
      rw [if_pos rfl, if_pos (by omega), if_pos rfl]
    · rw [if_neg (by omega), if_neg heq]
  · rw [if_neg hj, if_neg hj, if_neg (by omega)]

theorem slot_drop {i j : Int} (hi : 0 ≤ i) (hj : 0 ≤ j) :
    slot (xs.drop i.toNat) j = slot xs (i + j) := by
  rw [slot, slot, if_pos hj, if_pos (by omega), List.getElem?_drop]
  congr 1
  omega

variable {zero : α}

theorem length_resize {length : Int} (h : 0 ≤ length) :
    ((resize zero xs length).length : Int) = length := by
  rw [resize, List.length_take, List.length_append, List.length_replicate]
  omega

theorem slot_resize {length i : Int} (hlength : (xs.length : Int) ≤ length)
    (h : slot xs i = some value) :
    slot (resize zero xs length) i = some value := by
  obtain ⟨h0, hi⟩ := slot_of_lt h
  rw [slot, if_pos h0] at h ⊢
  rw [resize, List.getElem?_take, if_pos (by omega), List.getElem?_append_left (by omega)]
  exact h

def Window (xs : List α) (base lo hi : Int) (f : Int → Option α) : Prop :=
  ∀ v, lo ≤ v → v ≤ hi → ∃ value, f v = some value ∧ slot xs (v - base) = some value

variable {base lo hi : Int} {f : Int → Option α}

theorem Window.mono {base lo lo' hi hi' : Int} (h : Window xs base lo hi f) (hlo : lo ≤ lo')
    (hhi : hi' ≤ hi) :
    Window xs base lo' hi' f :=
  fun v _ _ => h v (by omega) (by omega)

theorem Window.congr {f g : Int → Option α} (h : Window xs base lo hi f)
    (hfg : ∀ v, lo ≤ v → v ≤ hi → g v = f v) :
    Window xs base lo hi g := by
  intro v hlo hhi
  rw [hfg v hlo hhi]
  exact h v hlo hhi

theorem Window.resize {base lo hi length : Int} (h : Window xs base lo hi f)
    (hlength : (xs.length : Int) ≤ length) :
    Window (resize zero xs length) base lo hi f := by
  intro v hlo hhi
  obtain ⟨value, hvalue, hslot⟩ := h v hlo hhi
  exact ⟨value, hvalue, slot_resize hlength hslot⟩

theorem Window.set (h : Window xs base lo hi f) (hbase : base ≤ hi + 1)
    (hlength : hi + 1 - base < xs.length) (hvalue : f (hi + 1) = some value) :
    Window (xs.set (hi + 1 - base).toNat value) base lo (hi + 1) f := by
  intro v hlo hhi
  rw [slot_set (by omega) hlength]
  by_cases hv : v = hi + 1
  · subst hv
    exact ⟨value, hvalue, if_pos rfl⟩
  · obtain ⟨value', hvalue', hslot⟩ := h v hlo (by omega)
    exact ⟨value', hvalue', by rw [if_neg (by omega), hslot]⟩

theorem Window.drop (h : Window xs base lo hi f) {base' : Int} (hbase : base ≤ base') :
    Window (xs.drop (base' - base).toNat) base' (max lo base') hi f := by
  intro v hlo hhi
  obtain ⟨value, hvalue, hslot⟩ := h v (by omega) hhi
  refine ⟨value, hvalue, ?_⟩
  rw [slot_drop (by omega) (by omega)]
  have hindex : base' - base + (v - base') = v - base := by omega
  rw [hindex]
  exact hslot

end VaultProofs.GoSlices
