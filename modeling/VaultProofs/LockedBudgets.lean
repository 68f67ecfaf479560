import Mathlib.Data.Finset.Card
import VaultProofs.ConcurrentPrograms

/-!
A budget in a shared cell. Some threads spend a unit of it under a lock; others write the cell back
from a copy, with the lock but without reading again.
-/

namespace VaultProofs.LockedBudgets

open ConcurrentPrograms

/-- What a thread knows: the value it last read, whether it has the lock, the value it read since it
took it, and whether it has spent its unit. -/
structure Phase (α : Type) where
  copy : Option α := none
  locked : Bool := false
  held : Option α := none
  spent : Bool := false

/-- What a step does to the cell and to the lock. After `forget`, a step that fails, the thread no
longer counts on what it has read. -/
inductive Event (α : Type) where
  | quiet
  | read (value : α)
  | forget (access : Access)
  | restore (value : α)
  | clear (value : α)
  | spend (value : α)
  | lock
  | unlock

namespace Event

variable {α : Type}

def access : Event α → Access
  | .read _ => .read
  | .forget access => access
  | .restore _ => .write
  | .clear _ => .write
  | .spend _ => .write
  | _ => .none

def cellAfter (cell : α) : Event α → α
  | .restore value => value
  | .clear value => value
  | .spend value => value
  | _ => cell

def takenAfter (taken : Bool) : Event α → Bool
  | .lock => true
  | .unlock => false
  | _ => taken

end Event

section moves

variable {α : Type} (budget : α → Nat) (good : α → Prop)

inductive Move : Phase α → Event α → Phase α → Prop where
  | quiet (q : Phase α) : Move q .quiet q
  | read (q : Phase α) (value : α) :
      Move q (.read value)
        { q with copy := some value, held := if q.locked then some value else none }
  | forget (q : Phase α) (access : Access) :
      Move q (.forget access) { q with copy := none, held := none }
  | restore (q : Phase α) (value old : α) (hcopy : q.copy = some old) (hgood : good value)
      (hbudget : budget value ≤ budget old) :
      Move q (.restore value) { q with copy := none, held := none }
  | clear (q : Phase α) (value : α) (hgood : good value) (hbudget : budget value = 0) :
      Move q (.clear value) { q with copy := none, held := none }
  | spend (q : Phase α) (value old : α) (hheld : q.held = some old) (hgood : good value)
      (hbudget : budget value < budget old) :
      Move q (.spend value) { q with copy := none, held := none, spent := true }
  | lock (q : Phase α) (hlocked : q.locked = false) :
      Move q .lock { q with locked := true, held := none }
  | unlock (q : Phase α) (hlocked : q.locked = true) :
      Move q .unlock { q with locked := false, held := none }

end moves

structure Snapshot (ι α : Type) where
  cell : α
  taken : Bool
  version : Nat
  seen : ι → Nat
  phases : ι → Phase α

variable {ι α : Type} [DecidableEq ι]

def Snapshot.after (s : Snapshot ι α) (i : ι) (event : Event α) (q : Phase α) :
    Snapshot ι α where
  cell := event.cellAfter s.cell
  taken := event.takenAfter s.taken
  version := Pool.nextVersion s.version event.access
  seen := Pool.nextSeen s.version s.seen i event.access
  phases := Function.update s.phases i q

/-- A read finds the cell as it is, a copy is written back only if nobody else has written since,
and the lock is taken only if it is free. -/
def Snapshot.Enabled (s : Snapshot ι α) (i : ι) : Event α → Prop
  | .read value => value = s.cell
  | .restore _ => s.seen i = s.version
  | .lock => s.taken = false
  | _ => True

variable {budget : α → Nat} {good : α → Prop} {n : Nat}

/-- The units spent and left are at most `n`, for the cell and for the value that the owner of the
lock has read. -/
structure Safe (budget : α → Nat) (good : α → Prop) (n : Nat) (s : Snapshot ι α) : Prop where
  good_cell : good s.cell
  seen_le : ∀ i, s.seen i ≤ s.version
  current : ∀ i value, (s.phases i).copy = some value → s.seen i = s.version → s.cell = value
  exclusive : ∀ i j, (s.phases i).locked = true → (s.phases j).locked = true → i = j
  taken : ∀ i, (s.phases i).locked = true → s.taken = true
  held_locked : ∀ i value, (s.phases i).held = some value → (s.phases i).locked = true
  within : ∃ spenders : Finset ι, (∀ i, (s.phases i).spent = true → i ∈ spenders) ∧
    spenders.card + budget s.cell ≤ n ∧
    ∀ i value, (s.phases i).held = some value → spenders.card + budget value ≤ n

omit [DecidableEq ι] in
theorem Safe.start (cell : α) (taken : Bool) (hgood : good cell) (hbudget : budget cell ≤ n) :
    Safe budget good n (⟨cell, taken, 0, fun _ => 0, fun _ => {}⟩ : Snapshot ι α) where
  good_cell := hgood
  seen_le _ := Nat.le_refl 0
  current _ _ h := by cases h
  exclusive _ _ h := by cases h
  taken _ h := by cases h
  held_locked _ _ h := by cases h
  within := ⟨∅, by simp, by simpa using hbudget, fun _ _ h => by cases h⟩

variable {s : Snapshot ι α} {event : Event α} {q : Phase α}

theorem locked_after {i j : ι} (hmove : Move budget good (s.phases i) event q)
    (hj : ((s.after i event q).phases j).locked = true) :
    ((s.phases j).locked = true ∧ (event = .unlock → j ≠ i)) ∨ (event = .lock ∧ j = i) := by
  by_cases hij : j = i
  · subst hij
    simp only [Snapshot.after, Function.update_self] at hj
    cases hmove with
    | lock => exact .inr ⟨rfl, rfl⟩
    | unlock => cases hj
    | _ => exact .inl ⟨hj, by simp⟩
  · simp only [Snapshot.after, Function.update_of_ne hij] at hj
    exact .inl ⟨hj, fun _ => hij⟩

variable {i : ι}

theorem Safe.taken_after (h : Safe budget good n s) (hmove : Move budget good (s.phases i) event q)
    (j : ι) (hj : ((s.after i event q).phases j).locked = true) :
    (s.after i event q).taken = true := by
  rcases locked_after hmove hj with ⟨hlocked, hunlock⟩ | ⟨rfl, -⟩
  · cases hmove with
    | lock => rfl
    | unlock hi => exact absurd (h.exclusive j i hlocked hi) (hunlock rfl)
    | _ => exact h.taken j hlocked
  · rfl

theorem Safe.held_locked_after (h : Safe budget good n s)
    (hmove : Move budget good (s.phases i) event q) (j : ι) (value : α)
    (hj : ((s.after i event q).phases j).held = some value) :
    ((s.after i event q).phases j).locked = true := by
  by_cases hij : j = i
  · subst hij
    simp only [Snapshot.after, Function.update_self] at hj ⊢
    cases hmove with
    | quiet => exact h.held_locked j value hj
    | read found =>
      by_contra hfree
      simp [hfree] at hj
    | _ => cases hj
  · simp only [Snapshot.after, Function.update_of_ne hij] at hj ⊢
    exact h.held_locked j value hj

theorem held_after {j : ι} (hmove : Move budget good (s.phases i) event q) {value : α}
    (hj : ((s.after i event q).phases j).held = some value) :
    (s.phases j).held = some value ∨ event = .read value := by
  by_cases hij : j = i
  · subst hij
    simp only [Snapshot.after, Function.update_self] at hj
    cases hmove with
    | quiet => exact .inl hj
    | read found =>
      split at hj
      · cases hj
        exact .inr rfl
      · cases hj
    | _ => cases hj
  · simp only [Snapshot.after, Function.update_of_ne hij] at hj
    exact .inl hj

section

variable (h : Safe budget good n s) (henabled : s.Enabled i event)
  (hmove : Move budget good (s.phases i) event q)

include h henabled hmove

theorem Safe.exclusive_after (a b : ι) (ha : ((s.after i event q).phases a).locked = true)
    (hb : ((s.after i event q).phases b).locked = true) : a = b := by
  have hfree : ∀ j, (s.phases j).locked = true → event ≠ .lock := by
    rintro j hj rfl
    cases (h.taken j hj).symm.trans henabled
  rcases locked_after hmove ha with ⟨ha, -⟩ | ⟨hlock, rfl⟩
  · rcases locked_after hmove hb with ⟨hb, -⟩ | ⟨hlock, -⟩
    · exact h.exclusive a b ha hb
    · exact absurd hlock (hfree a ha)
  · rcases locked_after hmove hb with ⟨hb, -⟩ | ⟨-, rfl⟩
    · exact absurd hlock (hfree b hb)
    · rfl

theorem Safe.current_after (j : ι) (value : α)
    (hj : ((s.after i event q).phases j).copy = some value)
    (hseen : (s.after i event q).seen j = (s.after i event q).version) :
    (s.after i event q).cell = value := by
  by_cases hij : j = i
  · subst hij
    simp only [Snapshot.after, Function.update_self] at hj
    cases hmove with
    | quiet | lock | unlock => exact h.current j value hj hseen
    | read found =>
      cases hj
      exact Eq.symm henabled
    | _ => cases hj
  obtain ⟨hseen', hwrite⟩ := Pool.seen_of_nextSeen (h.seen_le j) hij hseen
  simp only [Snapshot.after, Function.update_of_ne hij] at hj
  have hcell := h.current j value hj hseen'
  cases event with
  | restore | clear | spend => exact absurd rfl hwrite
  | _ => exact hcell

theorem Safe.within_after :
    ∃ spenders : Finset ι, (∀ j, ((s.after i event q).phases j).spent = true → j ∈ spenders) ∧
      spenders.card + budget (s.after i event q).cell ≤ n ∧
      ∀ j value, ((s.after i event q).phases j).held = some value →
        spenders.card + budget value ≤ n := by
  obtain ⟨spenders, hspent, hcell, hheld⟩ := h.within
  -- All moves but spending leave the spenders as they are.
  have hkept : q.spent = (s.phases i).spent →
      budget (s.after i event q).cell ≤ budget s.cell →
      ∃ spenders : Finset ι, (∀ j, ((s.after i event q).phases j).spent = true → j ∈ spenders) ∧
        spenders.card + budget (s.after i event q).cell ≤ n ∧
        ∀ j value, ((s.after i event q).phases j).held = some value →
          spenders.card + budget value ≤ n := by
    intro hq hbudget
    refine ⟨spenders, ?_, by omega, ?_⟩
    · intro j hj
      by_cases hij : j = i
      · subst hij
        simp only [Snapshot.after, Function.update_self] at hj
        exact hspent j (hq ▸ hj)
      · simp only [Snapshot.after, Function.update_of_ne hij] at hj
        exact hspent j hj
    intro j value hj
    rcases held_after hmove hj with hold | rfl
    · exact hheld j value hold
    · rw [show value = s.cell from henabled]
      exact hcell
  cases hmove with
  | spend value old hi hgood hbudget =>
    have hi' := hheld i old hi
    have hcard := Finset.card_insert_le i spenders
    refine ⟨insert i spenders, ?_, ?_, ?_⟩
    · intro j hj
      by_cases hij : j = i
      · exact hij ▸ Finset.mem_insert_self i spenders
      · simp only [Snapshot.after, Function.update_of_ne hij] at hj
        exact Finset.mem_insert_of_mem (hspent j hj)
    · simp only [Snapshot.after, Event.cellAfter]
      omega
    intro j value' hj
    by_cases hij : j = i
    · subst hij
      simp only [Snapshot.after, Function.update_self] at hj
      cases hj
    · simp only [Snapshot.after, Function.update_of_ne hij] at hj
      have hboth := h.exclusive j i (h.held_locked j value' hj) (h.held_locked i old hi)
      exact absurd hboth hij
  | restore value old hcopy hgood hbudget =>
    refine hkept rfl ?_
    rw [h.current i old hcopy henabled]
    exact hbudget
  | clear value hgood hbudget =>
    refine hkept rfl ?_
    simp only [Snapshot.after, Event.cellAfter, hbudget]
    exact Nat.zero_le _
  | _ => exact hkept rfl (Nat.le_refl _)

theorem Safe.after : Safe budget good n (s.after i event q) where
  good_cell := by
    cases hmove with
    | restore value old hcopy hgood | clear value hgood | spend value old hheld hgood => exact hgood
    | _ => exact h.good_cell
  seen_le j := Pool.nextSeen_le h.seen_le i event.access j
  current := h.current_after henabled hmove
  exclusive := h.exclusive_after henabled hmove
  taken := h.taken_after hmove
  held_locked := h.held_locked_after hmove
  within := h.within_after henabled hmove

end

end VaultProofs.LockedBudgets
