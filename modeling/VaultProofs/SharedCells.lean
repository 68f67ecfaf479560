import VaultProofs.ConcurrentPrograms

/-!
Threads that read and write one cell without a lock. An operation shows on the cell as an event; a
snapshot is what remains of a pool when only the cell, the versions and the phases of the threads
are kept.
-/

namespace VaultProofs.SharedCells

open EffectPrograms ConcurrentPrograms

/-- How an operation shows on the cell; a signal is an action outside the cell
that is to be counted. -/
inductive Event (α : Type) where
  | quiet
  | read (value : α)
  | write (value : α)
  | signal (good : Bool)

namespace Event

variable {α : Type}

def access : Event α → Access
  | .read _ => .read
  | .write _ => .write
  | _ => .none

def cellAfter (cell : α) : Event α → α
  | .write value => value
  | _ => cell

def signalsAfter (signals : Nat) : Event α → Nat
  | .signal _ => signals + 1
  | _ => signals

end Event

structure Snapshot (ι α Q : Type) where
  cell : α
  signals : Nat
  version : Nat
  seen : ι → Nat
  phases : ι → Q

namespace Snapshot

variable {ι α Q : Type} [DecidableEq ι]

def after (s : Snapshot ι α Q) (i : ι) (event : Event α) (q : Q) : Snapshot ι α Q where
  cell := event.cellAfter s.cell
  signals := event.signalsAfter s.signals
  version := Pool.nextVersion s.version event.access
  seen := Pool.nextSeen s.version s.seen i event.access
  phases := Function.update s.phases i q

/-- A read finds the cell as it is, and a thread writes only if nobody else has since it last read
or wrote. -/
def Enabled (s : Snapshot ι α Q) (i : ι) : Event α → Prop
  | .read value => value = s.cell
  | .write _ => s.seen i = s.version
  | _ => True

@[simp] theorem after_phases_self (s : Snapshot ι α Q) (i : ι) (event : Event α) (q : Q) :
    (s.after i event q).phases i = q := by
  simp [after]

theorem after_phases_of_ne (s : Snapshot ι α Q) {i j : ι} (event : Event α) (q : Q)
    (hj : j ≠ i) : (s.after i event q).phases j = s.phases j := by
  simp [after, hj]

/-- A thread whose phase records the value it read, and that has seen the latest
version, has the current value of the cell. -/
structure Current (copy : Q → Option α) (s : Snapshot ι α Q) : Prop where
  seen_le : ∀ i, s.seen i ≤ s.version
  cell_eq : ∀ i value, copy (s.phases i) = some value → s.seen i = s.version → s.cell = value

variable {s : Snapshot ι α Q}

theorem seen_after_eq (hs : ∀ i, s.seen i ≤ s.version) {i j : ι} {event : Event α} {q : Q}
    (hij : j ≠ i) (hseen : (s.after i event q).seen j = (s.after i event q).version) :
    s.seen j = s.version ∧ (s.after i event q).cell = s.cell := by
  obtain ⟨hseen', hwrite⟩ := Pool.seen_of_nextSeen (hs j) hij hseen
  refine ⟨hseen', ?_⟩
  cases event with
  | write value => exact absurd rfl hwrite
  | quiet | read value | signal good => rfl

theorem Current.after {copy : Q → Option α} (hs : Current copy s) {i : ι} {event : Event α} {q : Q}
    (hen : s.Enabled i event)
    (hcopy : ∀ value, copy q = some value →
      event = .read value ∨ (event.access = .none ∧ copy (s.phases i) = some value)) :
    Current copy (s.after i event q) := by
  refine ⟨Pool.nextSeen_le hs.seen_le i event.access, ?_⟩
  intro j value hvalue hseen
  by_cases hij : j = i
  · subst hij
    rw [after_phases_self] at hvalue
    rcases hcopy value hvalue with rfl | ⟨hnone, hold⟩
    · exact hen.symm
    cases event with
    | quiet | signal good => exact hs.cell_eq j value hold hseen
    | read _ | write _ => cases hnone
  · obtain ⟨hseen', hcell⟩ := seen_after_eq hs.seen_le hij hseen
    rw [after_phases_of_ne s event q hij] at hvalue
    rw [hcell]
    exact hs.cell_eq j value hvalue hseen'

end Snapshot

/-- The cell inside the state of a machine, and the event that an operation and its answer show. -/
structure CellView {I : Interface} {E σ : Type} (M : Machine I E σ) (α : Type) where
  cell : σ → α
  signals : σ → Nat
  event : (op : I.Op) → I.Answer op → Event α

namespace CellView

variable {I : Interface} {ι E σ α β Q : Type} {M : Machine I E σ} [DecidableEq ι]

structure Faithful (V : CellView M α) (e : E) : Prop where
  cell_after : ∀ op s, V.cell (M.exec e op s).2 =
    (V.event op (M.exec e op s).1).cellAfter (V.cell s)
  signals_after : ∀ op s, V.signals (M.exec e op s).2 =
    (V.event op (M.exec e op s).1).signalsAfter (V.signals s)
  access_eq : ∀ op s, (V.event op (M.exec e op s).1).access = M.access op
  read_eq : ∀ op s value, V.event op (M.exec e op s).1 = .read value → value = V.cell s

def protocol (V : CellView M α) (admits : (op : I.Op) → I.Answer op → Prop)
    (move : Q → Event α → Q → Prop) : Protocol I Q where
  admits := admits
  step q op answer q' := move q (V.event op answer) q'

def related (V : CellView M α) (K : Snapshot ι α Q → Prop) (state : σ) (version : Nat)
    (seen : ι → Nat) (phases : ι → Q) : Prop :=
  K ⟨V.cell state, V.signals state, version, seen, phases⟩

/-- An invariant of snapshots holds along every schedule without stale writes. -/
theorem tracks_runSchedule (V : CellView M α) {admits : (op : I.Op) → I.Answer op → Prop}
    {move : ι → Q → Event α → Q → Prop} {final : ι → Q → β → Prop}
    {K : Snapshot ι α Q → Prop} {good : E → Prop} {allowed : Event α → Prop}
    (hfaithful : ∀ e, good e → V.Faithful e)
    (hadmits : ∀ e state version seen phases, good e →
      V.related K state version seen phases → ∀ op, admits op (M.exec e op state).1)
    (hallowed : ∀ e, good e → ∀ op state, allowed (V.event op (M.exec e op state).1))
    (hmove : ∀ s i event q, K s → s.Enabled i event → allowed event →
      move i (s.phases i) event q → K (s.after i event q))
    (schedule : List (ι × E)) (c : Pool I ι σ β)
    (hgood : ∀ move ∈ schedule, good move.2) (hfresh : Pool.NoStaleWrite M schedule c)
    (hc : Pool.Tracks (fun i => V.protocol admits (move i)) final (V.related K) c) :
    Pool.Tracks (fun i => V.protocol admits (move i)) final (V.related K)
      (Pool.runSchedule M schedule c) := by
  refine Pool.runSchedule_preserves ?_ schedule c hgood hfresh hc
  intro i e c hgood hfresh hc
  have hV := hfaithful e hgood
  refine Pool.tracks_advance ?_ hfresh ?_ hc
  · intro op phases hJ
    exact hadmits e _ _ _ phases hgood hJ op
  intro op phases q hJ hwrite hq
  have hnext := hmove _ i _ q hJ ?_ (hallowed e hgood op c.state) hq
  · simpa only [related, Snapshot.after, hV.cell_after op c.state, hV.signals_after op c.state,
      hV.access_eq op c.state] using hnext
  cases hevent : V.event op (M.exec e op c.state).1 with
  | quiet | signal good => trivial
  | read value => exact hV.read_eq op c.state value hevent
  | write value =>
    apply hwrite
    rw [← hV.access_eq op c.state, hevent]
    rfl

end CellView

end VaultProofs.SharedCells
