import VaultProofs.CountedMaps
import VaultProofs.LeaseManager

/-!
The counters of the expiration manager against its maps. They are exact along a run in
which no irrevocable lease is revoked and no lease that never expires is revoked lazily.
-/

namespace VaultProofs.LeaseCounters

open GoStrings GoTimes CountedMaps LeaseManager
open VaultEffects (GoError)

/-- What one report adds to the leases the quota manager counts under an ID. -/
def QuotaReport.change (leaseID : GoString) (report : QuotaReport) : Int :=
  if report.leaseID = leaseID then
    match report.action with
    | .created => 1
    | .deleted => -1
  else 0

def outstanding (reported : List QuotaReport) (leaseID : GoString) : Int :=
  (reported.map (QuotaReport.change leaseID)).sum

structure Exact (m : LeaseMemory) : Prop where
  leaseCount : m.leaseCount = m.pending.keys.length + m.irrevocable.keys.length
  irrevocableLeaseCount : m.irrevocableLeaseCount = m.irrevocable.keys.length
  notPendingNonexpiring : ∀ id, id ∈ m.pending → id ∉ m.nonexpiring
  notPendingIrrevocable : ∀ id, id ∈ m.pending → id ∉ m.irrevocable
  notNonexpiringIrrevocable : ∀ id, id ∈ m.nonexpiring → id ∉ m.irrevocable
  reported : ∀ id, outstanding m.reported id =
    if id ∈ m.pending ∨ id ∈ m.irrevocable then 1 else 0

/-- The cached info, without which a deletion is not reported, is always there. -/
def Cached (pending : AList (fun _ : GoString => PendingInfo)) : Prop :=
  ∀ id info, pending.lookup id = some info → info.cachedLeaseInfo.isSome

structure Backed (m : Manager) : Prop where
  named : ∀ id le, m.stored.lookup id = some le → le.leaseID = id
  irrevocable : ∀ id le, m.stored.lookup id = some le →
    (id ∈ m.memory.irrevocable ↔ le.isIrrevocable = true)
  nonexpiring : ∀ id le, m.stored.lookup id = some le →
    id ∈ m.memory.nonexpiring → le.expireTime = none

structure Sound (m : Manager) : Prop where
  exact : Exact m.memory
  cached : Cached m.memory.pending
  backed : Backed m

theorem outstanding_append (reported : List QuotaReport) (report : QuotaReport) (id : GoString) :
    outstanding (reported ++ [report]) id =
      outstanding reported id + QuotaReport.change id report := by
  rw [outstanding, List.map_append, List.sum_append, List.map_singleton, List.sum_singleton]
  rfl

/-- What a change at one lease that leaves it in at most one map does to the counters and
reports. -/
structure Moved (id : GoString) (change : Int) (m n : LeaseMemory) : Prop where
  pending : ∀ x, x ≠ id → (x ∈ n.pending ↔ x ∈ m.pending)
  nonexpiring : ∀ x, x ≠ id → (x ∈ n.nonexpiring ↔ x ∈ m.nonexpiring)
  irrevocable : ∀ x, x ≠ id → (x ∈ n.irrevocable ↔ x ∈ m.irrevocable)
  apart : (id ∈ n.pending → id ∉ n.nonexpiring) ∧ (id ∈ n.pending → id ∉ n.irrevocable) ∧
    (id ∈ n.nonexpiring → id ∉ n.irrevocable)
  balance : change = (if id ∈ n.pending ∨ id ∈ n.irrevocable then 1 else 0) -
    if id ∈ m.pending ∨ id ∈ m.irrevocable then 1 else 0
  leaseCount : n.leaseCount = m.leaseCount + change
  irrevocableLeaseCount : n.irrevocableLeaseCount - m.irrevocableLeaseCount =
    (if id ∈ n.irrevocable then 1 else 0) - if id ∈ m.irrevocable then 1 else 0
  reported : ∀ x, outstanding n.reported x =
    outstanding m.reported x + if x = id then change else 0

variable {id : GoString}

theorem Exact.moved {change : Int} {m n : LeaseMemory} (h : Exact m)
    (hmoved : Moved id change m n) : Exact n := by
  have hpending := length_keys_of_agree hmoved.pending
  have hirrevocable := length_keys_of_agree hmoved.irrevocable
  have hboth : ∀ k : LeaseMemory, (id ∈ k.pending → id ∉ k.irrevocable) →
      (if id ∈ k.pending ∨ id ∈ k.irrevocable then (1 : Int) else 0) =
        (if id ∈ k.pending then 1 else 0) + if id ∈ k.irrevocable then 1 else 0 := by
    intro k hapart
    by_cases hp : id ∈ k.pending
    · simp [hp, hapart hp]
    · simp [hp]
  refine ⟨?_, ?_, ?_, ?_, ?_, ?_⟩
  · have hbalance := hmoved.balance
    rw [hboth n hmoved.apart.2.1, hboth m (h.notPendingIrrevocable id)] at hbalance
    have hcount := hmoved.leaseCount
    have hold := h.leaseCount
    omega
  · have hcount := hmoved.irrevocableLeaseCount
    have hold := h.irrevocableLeaseCount
    omega
  · intro x hx
    by_cases hid : x = id
    · subst hid
      exact hmoved.apart.1 hx
    · rw [hmoved.nonexpiring x hid]
      exact h.notPendingNonexpiring x ((hmoved.pending x hid).mp hx)
  · intro x hx
    by_cases hid : x = id
    · subst hid
      exact hmoved.apart.2.1 hx
    · rw [hmoved.irrevocable x hid]
      exact h.notPendingIrrevocable x ((hmoved.pending x hid).mp hx)
  · intro x hx
    by_cases hid : x = id
    · subst hid
      exact hmoved.apart.2.2 hx
    · rw [hmoved.irrevocable x hid]
      exact h.notNonexpiringIrrevocable x ((hmoved.nonexpiring x hid).mp hx)
  intro x
  have hreport := hmoved.reported x
  have hold := h.reported x
  by_cases hid : x = id
  · subst hid
    have hbalance := hmoved.balance
    rw [if_pos rfl] at hreport
    omega
  · rw [if_neg hid] at hreport
    simp only [hmoved.pending x hid, hmoved.irrevocable x hid]
    omega

variable {m : LeaseMemory}

theorem removeFromPending_absent {decrement : Bool} (h : id ∉ m.pending) :
    removeFromPending id decrement m = m := by
  rw [removeFromPending, AList.lookup_eq_none.mpr h]

theorem removeFromPending_kept (h : id ∈ m.pending) :
    removeFromPending id false m = { m with pending := m.pending.erase id } := by
  obtain ⟨info, hinfo⟩ := Option.isSome_iff_exists.mp (AList.lookup_isSome.mpr h)
  rw [removeFromPending, hinfo]
  rfl

theorem removeFromPending_counted (hcached : Cached m.pending) (h : id ∈ m.pending) :
    ∃ role, removeFromPending id true m =
      quotasHandleLeases .deleted id role
        { m with pending := m.pending.erase id, leaseCount := m.leaseCount - 1 } := by
  obtain ⟨info, hinfo⟩ := Option.isSome_iff_exists.mp (AList.lookup_isSome.mpr h)
  obtain ⟨cached, hcachedInfo⟩ := Option.isSome_iff_exists.mp (hcached id info hinfo)
  refine ⟨cached.loginRole, ?_⟩
  rw [removeFromPending, hinfo]
  simp only [if_true, hcachedInfo]

theorem outstanding_handled (action : LeaseAction) (id role : GoString) (m : LeaseMemory)
    (x : GoString) :
    outstanding (quotasHandleLeases action id role m).reported x =
      outstanding m.reported x +
        if x = id then (match action with | .created => 1 | .deleted => -1) else 0 := by
  rw [quotasHandleLeases, outstanding_append, QuotaReport.change]
  simp only [eq_comm]

variable {β : GoString → Type}

theorem mem_insert_of_ne {s : AList β} {id x : GoString} {b : β id} (h : x ≠ id) :
    x ∈ s.insert id b ↔ x ∈ s := by
  rw [AList.mem_insert]
  exact or_iff_right h

theorem mem_erase_of_ne {s : AList β} {id x : GoString} (h : x ≠ id) : x ∈ s.erase id ↔ x ∈ s := by
  rw [AList.mem_erase]
  exact and_iff_right h

theorem not_mem_erase (s : AList β) (id : GoString) : id ∉ s.erase id :=
  fun h => (AList.mem_erase.mp h).1 rfl

theorem reported_unchanged (reported : List QuotaReport) (x : GoString) :
    outstanding reported x = outstanding reported x + if x = id then 0 else 0 := by
  rw [ite_self, Int.add_zero]

theorem moved_pending (hexact : Exact m) (hpending : id ∈ m.pending) (info : PendingInfo) :
    Moved id 0 m { m with pending := m.pending.insert id info } := by
  have hnonexpiring := hexact.notPendingNonexpiring id hpending
  have hirrevocable := hexact.notPendingIrrevocable id hpending
  refine ⟨fun x hx => mem_insert_of_ne hx, fun x _ => Iff.rfl, fun x _ => Iff.rfl,
    ⟨fun _ => hnonexpiring, fun _ => hirrevocable, fun _ => hirrevocable⟩, ?_,
    (Int.add_zero _).symm, ?_, reported_unchanged _⟩
  · simp [hpending]
  · simp only [Int.sub_self]

variable {le : LeaseEntry}

theorem moved_created (hpending : le.leaseID ∉ m.pending)
    (hnonexpiring : le.leaseID ∉ m.nonexpiring) (hirrevocable : le.leaseID ∉ m.irrevocable)
    (info : PendingInfo) :
    Moved le.leaseID 1 m (quotasHandleLeases .created le.leaseID le.loginRole
      { m with
        pending := m.pending.insert le.leaseID info
        leaseCount := m.leaseCount + 1 }) := by
  refine ⟨fun x hx => mem_insert_of_ne hx, fun x _ => Iff.rfl, fun x _ => Iff.rfl,
    ⟨fun _ => hnonexpiring, fun _ => hirrevocable, fun _ => hirrevocable⟩, ?_, rfl, ?_,
    outstanding_handled .created _ _ _⟩
  · simp [quotasHandleLeases, hpending, hirrevocable]
  · simp [quotasHandleLeases, hirrevocable]

/-- A pending lease that leaves its map for good or for that of leases that never expire, the only
map it may then be in. -/
theorem moved_deleted {id role : GoString} (hexact : Exact m) (hpending : id ∈ m.pending)
    {nonexpiring : AList (fun _ : GoString => PendingInfo)}
    (hrest : ∀ x, x ≠ id → (x ∈ nonexpiring ↔ x ∈ m.nonexpiring)) :
    Moved id (-1) m (quotasHandleLeases .deleted id role
      { m with
        pending := m.pending.erase id
        nonexpiring := nonexpiring
        leaseCount := m.leaseCount - 1 }) := by
  have hgone := not_mem_erase m.pending id
  have hirrevocable := hexact.notPendingIrrevocable id hpending
  refine ⟨fun x hx => mem_erase_of_ne hx, hrest, fun x _ => Iff.rfl,
    ⟨fun h => absurd h hgone, fun h => absurd h hgone, fun _ => hirrevocable⟩, ?_, rfl, ?_,
    outstanding_handled .deleted _ _ _⟩
  · simp [quotasHandleLeases, hpending, hirrevocable]
  · simp [quotasHandleLeases, hirrevocable]

theorem moved_uncounted (hpending : id ∉ m.pending) (hirrevocable : id ∉ m.irrevocable)
    {nonexpiring : AList (fun _ : GoString => PendingInfo)}
    (hrest : ∀ x, x ≠ id → (x ∈ nonexpiring ↔ x ∈ m.nonexpiring)) :
    Moved id 0 m { m with nonexpiring := nonexpiring } := by
  refine ⟨fun x _ => Iff.rfl, hrest, fun x _ => Iff.rfl,
    ⟨fun h => absurd h hpending, fun _ => hirrevocable, fun _ => hirrevocable⟩, ?_,
    (Int.add_zero _).symm, ?_, reported_unchanged _⟩
  · simp only [Int.sub_self]
  · simp only [Int.sub_self]

theorem moved_irrevocable (hexact : Exact m) (hirrevocable : le.leaseID ∈ m.irrevocable) :
    Moved le.leaseID 0 m (updateIrrevocable le m) := by
  have hpending : le.leaseID ∉ m.pending :=
    fun h => hexact.notPendingIrrevocable _ h hirrevocable
  have hnonexpiring : le.leaseID ∉ m.nonexpiring :=
    fun h => hexact.notNonexpiringIrrevocable _ h hirrevocable
  have hlookup : (m.irrevocable.lookup le.leaseID).isSome = true := AList.lookup_isSome.mpr hirrevocable
  rw [updateIrrevocable, removeFromPending_absent hpending]
  simp only [hlookup, Bool.or_true, Bool.not_true, if_true, Bool.false_eq_true, if_false]
  refine ⟨fun x _ => Iff.rfl, fun x _ => Iff.rfl, fun x hx => mem_insert_of_ne hx,
    ⟨fun h => absurd h hpending, fun h => absurd h hpending, fun h => absurd h hnonexpiring⟩,
    ?_, (Int.add_zero _).symm, ?_, reported_unchanged _⟩
  · simp [hirrevocable]
  · simp [hirrevocable]

theorem updatePending_exact (hexact : Exact m) (hnonexpiring : le.leaseID ∉ m.nonexpiring)
    (hirrevocable : le.leaseID ∈ m.irrevocable ↔ le.isIrrevocable = true)
    (hkind : le.expireTime ≠ none ∨ le.isIrrevocable = false) :
    Exact (updatePending le m) := by
  rw [updatePending]
  split
  · rename_i hnever
    have hnot : le.leaseID ∉ m.irrevocable := by
      rw [hirrevocable, hkind.resolve_left (fun h => h hnever.1)]
      exact Bool.false_ne_true
    rw [updateNonexpiring]
    cases hpending : m.pending.lookup le.leaseID with
    | none =>
      exact hexact.moved (moved_uncounted (AList.lookup_eq_none.mp hpending) hnot
        fun x hx => mem_insert_of_ne hx)
    | some info =>
      exact hexact.moved (moved_deleted hexact (mem_of_lookup hpending)
        fun x hx => mem_insert_of_ne hx)
  split
  · rename_i hmarked
    exact hexact.moved (moved_irrevocable hexact (hirrevocable.mpr hmarked))
  rename_i hmarked
  have hnot : le.leaseID ∉ m.irrevocable := fun h => hmarked (hirrevocable.mp h)
  rw [updateExpiring]
  cases hpending : m.pending.lookup le.leaseID with
  | some info => exact hexact.moved (moved_pending hexact (mem_of_lookup hpending) _)
  | none =>
    exact hexact.moved
      (moved_created (AList.lookup_eq_none.mp hpending) hnonexpiring hnot _)

theorem cached_insert {pending : AList (fun _ : GoString => PendingInfo)} (h : Cached pending)
    (id : GoString) {info : PendingInfo} (hinfo : info.cachedLeaseInfo.isSome) :
    Cached (pending.insert id info) := by
  intro x kept hkept
  rcases lookup_insert_cases hkept with ⟨rfl, rfl⟩ | ⟨-, hkept⟩
  · exact hinfo
  · exact h x kept hkept

theorem cached_erase {pending : AList (fun _ : GoString => PendingInfo)} (h : Cached pending)
    (id : GoString) : Cached (pending.erase id) := by
  intro x kept hkept
  by_cases hx : x = id
  · subst hx
    rw [AList.lookup_erase] at hkept
    cases hkept
  · rw [AList.lookup_erase_ne hx] at hkept
    exact h x kept hkept

theorem removeFromPending_cached {decrement : Bool} (h : Cached m.pending) :
    Cached (removeFromPending id decrement m).pending := by
  rw [removeFromPending]
  split
  · exact h
  split
  · split
    · exact cached_erase h id
    · exact cached_erase h id
  · exact cached_erase h id

theorem updatePending_cached (h : Cached m.pending) : Cached (updatePending le m).pending := by
  rw [updatePending]
  split
  · rw [updateNonexpiring]
    split
    · exact h
    · exact cached_erase h le.leaseID
  split
  · exact removeFromPending_cached h
  · rw [updateExpiring]
    split
    · exact cached_insert h le.leaseID rfl
    · exact cached_insert h le.leaseID rfl

theorem removeFromPending_others (id : GoString) (decrement : Bool) (m : LeaseMemory) :
    (removeFromPending id decrement m).irrevocable = m.irrevocable ∧
      (removeFromPending id decrement m).nonexpiring = m.nonexpiring := by
  rw [removeFromPending]
  split
  · exact ⟨rfl, rfl⟩
  split
  · split
    · exact ⟨rfl, rfl⟩
    · exact ⟨rfl, rfl⟩
  · exact ⟨rfl, rfl⟩

theorem mem_updatePending_irrevocable {x : GoString}
    (hirrevocable : le.leaseID ∈ m.irrevocable ↔ le.isIrrevocable = true) :
    x ∈ (updatePending le m).irrevocable ↔ x ∈ m.irrevocable := by
  rw [updatePending]
  split
  · rw [updateNonexpiring]
    split
    · rfl
    · rfl
  split
  · rename_i hmarked
    rw [updateIrrevocable]
    simp only [removeFromPending_others, AList.mem_insert]
    refine or_iff_right_of_imp ?_
    rintro rfl
    exact hirrevocable.mpr hmarked
  · rw [updateExpiring]
    split
    · rfl
    · rfl

theorem mem_updatePending_nonexpiring {x : GoString} (h : x ∈ (updatePending le m).nonexpiring) :
    x ∈ m.nonexpiring ∨ (x = le.leaseID ∧ le.expireTime = none) := by
  rw [updatePending] at h
  split at h
  · rename_i hnever
    have hmem : x ∈ m.nonexpiring.insert le.leaseID
        { cachedLeaseInfo := some (inMemoryLeaseInfo le) } := by
      rw [updateNonexpiring] at h
      split at h
      · exact h
      · exact h
    rcases (AList.mem_insert _).mp hmem with hx | hx
    · exact .inr ⟨hx, hnever.1⟩
    · exact .inl hx
  split at h
  · rw [updateIrrevocable] at h
    simp only [removeFromPending_others] at h
    exact .inl h
  · rw [updateExpiring] at h
    split at h
    · exact .inl h
    · exact .inl h

theorem Backed.persisted {m : Manager} (h : Backed m) (le : LeaseEntry) {n : LeaseMemory}
    (hothers : ∀ x, x ≠ le.leaseID → (x ∈ n.irrevocable ↔ x ∈ m.memory.irrevocable) ∧
      (x ∈ n.nonexpiring → x ∈ m.memory.nonexpiring))
    (hirrevocable : le.leaseID ∈ n.irrevocable ↔ le.isIrrevocable = true)
    (hnonexpiring : le.leaseID ∈ n.nonexpiring → le.expireTime = none) :
    Backed ⟨m.stored.insert le.leaseID le, n⟩ := by
  refine ⟨fun id kept hkept => ?_, fun id kept hkept => ?_, fun id kept hkept hmem => ?_⟩
  · rcases lookup_insert_cases hkept with ⟨rfl, rfl⟩ | ⟨-, hold⟩
    · rfl
    · exact h.named id kept hold
  · rcases lookup_insert_cases hkept with ⟨rfl, rfl⟩ | ⟨hid, hold⟩
    · exact hirrevocable
    · exact (hothers id hid).1.trans (h.irrevocable id kept hold)
  · rcases lookup_insert_cases hkept with ⟨rfl, rfl⟩ | ⟨hid, hold⟩
    · exact hnonexpiring hmem
    · exact h.nonexpiring id kept hold ((hothers id hid).2 hmem)

theorem sound_persisted {m : Manager} (h : Sound m)
    (hirrevocable : le.leaseID ∈ m.memory.irrevocable ↔ le.isIrrevocable = true)
    (hnonexpiring : le.leaseID ∉ m.memory.nonexpiring) : Sound (m.persist le) :=
  ⟨h.exact, h.cached, h.backed.persisted le (fun _ _ => ⟨Iff.rfl, id⟩) hirrevocable
    fun hmem => absurd hmem hnonexpiring⟩

theorem sound_updated {m : Manager} (h : Sound m)
    (hirrevocable : le.leaseID ∈ m.memory.irrevocable ↔ le.isIrrevocable = true)
    (hnonexpiring : le.leaseID ∉ m.memory.nonexpiring)
    (hkind : le.expireTime ≠ none ∨ le.isIrrevocable = false) :
    Sound ((m.persist le).update le) := by
  refine ⟨updatePending_exact h.exact hnonexpiring hirrevocable hkind,
    updatePending_cached h.cached, h.backed.persisted le (fun x hx => ⟨?_, fun hmem => ?_⟩) ?_ ?_⟩
  · exact mem_updatePending_irrevocable hirrevocable
  · exact (mem_updatePending_nonexpiring hmem).resolve_right fun hnew => hx hnew.1
  · exact (mem_updatePending_irrevocable hirrevocable).trans hirrevocable
  · intro hmem
    exact ((mem_updatePending_nonexpiring hmem).resolve_left hnonexpiring).2

theorem sound_erased {m : Manager} (h : Sound m) (id : GoString) :
    Sound { m with stored := m.stored.erase id } := by
  have hlookup : ∀ x kept, (m.stored.erase id).lookup x = some kept →
      m.stored.lookup x = some kept := by
    intro x kept hkept
    by_cases hx : x = id
    · subst hx
      rw [AList.lookup_erase] at hkept
      cases hkept
    · rwa [AList.lookup_erase_ne hx] at hkept
  exact ⟨h.exact, h.cached,
    ⟨fun x kept hkept => h.backed.named x kept (hlookup x kept hkept),
      fun x kept hkept => h.backed.irrevocable x kept (hlookup x kept hkept),
      fun x kept hkept => h.backed.nonexpiring x kept (hlookup x kept hkept)⟩⟩

theorem clearExpirationHandler_eq (hid : id ∉ m.irrevocable) : clearExpirationHandler id m =
      { removeFromPending id true m with
        nonexpiring := (removeFromPending id true m).nonexpiring.erase id } := by
  have hnone : (removeFromPending id true m).irrevocable.lookup id = none := by
    rw [(removeFromPending_others ..).1]
    exact AList.lookup_eq_none.mpr hid
  simp only [clearExpirationHandler, hnone]

theorem clearExpirationHandler_exact (hexact : Exact m) (hcached : Cached m.pending)
    (hid : id ∉ m.irrevocable) :
    Exact (clearExpirationHandler id m) := by
  rw [clearExpirationHandler_eq hid]
  by_cases hpending : id ∈ m.pending
  · obtain ⟨role, hremoved⟩ := removeFromPending_counted hcached hpending
    rw [hremoved]
    exact hexact.moved (moved_deleted hexact hpending fun x hx => mem_erase_of_ne hx)
  · rw [removeFromPending_absent hpending]
    exact hexact.moved (moved_uncounted hpending hid fun x hx => mem_erase_of_ne hx)

theorem sound_cleared {m : Manager} (h : Sound m) (hid : id ∉ m.memory.irrevocable) :
    Sound { m with memory := clearExpirationHandler id m.memory } := by
  have hexact := clearExpirationHandler_exact h.exact h.cached hid
  rw [clearExpirationHandler_eq hid] at hexact ⊢
  refine ⟨hexact, removeFromPending_cached h.cached, ⟨h.backed.named, ?_, ?_⟩⟩
  · intro x kept hkept
    rw [(removeFromPending_others ..).1]
    exact h.backed.irrevocable x kept hkept
  intro x kept hkept hmem
  have hmem : x ∈ (removeFromPending id true m.memory).nonexpiring := (AList.mem_erase.mp hmem).2
  rw [(removeFromPending_others ..).2] at hmem
  exact h.backed.nonexpiring x kept hkept hmem

theorem irrevocableErrorText_ne_nil (text : GoString) : irrevocableErrorText text ≠ [] := by
  rw [irrevocableErrorText]
  split
  · decide
  intro h
  rw [List.take_eq_nil_iff] at h
  rcases h with h | h
  · exact absurd h (by decide)
  · simp_all

theorem moved_marked (hexact : Exact m) (hpending : id ∈ m.pending) (info : LeaseEntry) :
    Moved id 0 m
      { m with
        pending := m.pending.erase id
        nonexpiring := m.nonexpiring.erase id
        irrevocable := m.irrevocable.insert id info
        irrevocableLeaseCount := m.irrevocableLeaseCount + 1 } := by
  have hgone := not_mem_erase m.pending id
  have hnever := not_mem_erase m.nonexpiring id
  have hirrevocable := hexact.notPendingIrrevocable id hpending
  refine ⟨fun x hx => mem_erase_of_ne hx, fun x hx => mem_erase_of_ne hx,
    fun x hx => mem_insert_of_ne hx,
    ⟨fun h => absurd h hgone, fun h => absurd h hgone, fun h => absurd h hnever⟩, ?_,
    (Int.add_zero _).symm, ?_, reported_unchanged _⟩
  · simp [hpending]
  · simp only [AList.mem_insert, true_or, if_true, hirrevocable, if_false]
    omega

variable {env : CallEnv}

theorem sound_marked {m : Manager} {id text : GoString} (h : Sound m)
    (hpersist : env.persistErr = none) (hpending : id ∈ m.memory.pending)
    (hstored : m.stored.lookup id = some le) : Sound (markLeaseIrrevocable env le text m) := by
  have hid := h.backed.named id le hstored
  subst hid
  rw [markLeaseIrrevocable, hpersist]
  split
  · exact h
  have hmoved := moved_marked h.exact hpending
    (inMemoryLeaseInfo { le with revokeErr := irrevocableErrorText text })
  have hpendingAdded : le.leaseID ∈
      (LeaseMemory.mk m.memory.pending m.memory.nonexpiring
        (m.memory.irrevocable.insert le.leaseID
          (inMemoryLeaseInfo { le with revokeErr := irrevocableErrorText text }))
        m.memory.leaseCount (m.memory.irrevocableLeaseCount + 1) m.memory.reported).pending :=
    hpending
  simp only [Option.isSome_none, Bool.false_eq_true, if_false, Manager.persist]
  rw [removeFromPending_kept hpendingAdded]
  refine ⟨h.exact.moved hmoved, cached_erase h.cached le.leaseID, h.backed.persisted
    { le with revokeErr := irrevocableErrorText text }
    (fun x hx => ⟨mem_insert_of_ne hx, fun hmem => (AList.mem_erase.mp hmem).2⟩) ?_ ?_⟩
  · simp [LeaseEntry.isIrrevocable, irrevocableErrorText_ne_nil]
  · exact fun hmem => absurd hmem (not_mem_erase _ _)

theorem renewable_ok {now : Int} {answer : Bool} (h : le.renewable now = .ok answer) :
    le.isIrrevocable = false ∧ le.expireTime ≠ none := by
  rw [LeaseEntry.renewable] at h
  split at h
  · cases h
  rename_i hrevocable
  split at h
  · cases h
  · rename_i hexpire
    rw [hexpire]
    exact ⟨Bool.eq_false_iff.mpr hrevocable, Option.some_ne_none _⟩

variable {r : Registration}

theorem registeredLease_ok {now : Int} (h : registeredLease r now = .ok le) :
    le.leaseID = r.leaseID ∧ le.isIrrevocable = false := by
  rw [registeredLease] at h
  split at h
  · cases hlimit : r.batchExpiry with
    | error err =>
      rw [hlimit] at h
      cases h
    | ok limit =>
      rw [hlimit] at h
      simp only [Except.map] at h
      split at h
      · cases h
        exact ⟨rfl, rfl⟩
      · cases h
        exact ⟨rfl, rfl⟩
  split at h
  · cases h
    exact ⟨rfl, rfl⟩
  · cases h
    exact ⟨rfl, rfl⟩

inductive LeaseCall where
  | register (r : Registration)
  | registerAuth (r : AuthRegistration)
  | renew (r : SecretRenewal)
  | renewToken (r : TokenRenewal)
  | lazyRevoke (leaseID : GoString)
  | revoke (leaseID : GoString) (force skipToken : Bool) (backendErr : Option GoError)
  | revocationFailed (leaseID text : GoString) (unrecoverable : Bool)

def runCall (env : CallEnv) (call : LeaseCall) (m : Manager) : Manager :=
  match call with
  | .register r => (register env r m).2
  | .registerAuth r => (registerAuth env r m).2
  | .renew r => (renew env r m).2
  | .renewToken r => (renewToken env r m).2
  | .lazyRevoke id => (lazyRevoke env id m).2
  | .revoke id force skipToken backendErr => (revokeCommon env id force skipToken backendErr m).2
  | .revocationFailed id text unrecoverable => onFailure env id text unrecoverable m

def runCalls (m : Manager) (calls : List (CallEnv × LeaseCall)) : Manager :=
  calls.foldl (fun m call => runCall call.1 call.2 m) m

/-- A new lease has an ID of its own, an irrevocable lease is revoked in vain at most, no
lease that never expires is revoked lazily, and a lease marked as irrevocable is stored so. -/
def Admissible (env : CallEnv) (m : LeaseMemory) : LeaseCall → Prop
  | .register r => r.leaseID ∉ m.irrevocable ∧ r.leaseID ∉ m.nonexpiring
  | .registerAuth r => r.leaseID ∉ m.irrevocable ∧ r.leaseID ∉ m.nonexpiring
  | .renew _ => True
  | .renewToken _ => True
  | .lazyRevoke id => id ∉ m.nonexpiring
  | .revoke id force skipToken backendErr =>
    id ∉ m.irrevocable ∨ (force = false ∧ skipToken = false ∧ backendErr ≠ none)
  | .revocationFailed _ _ _ => env.persistErr = none

def AdmissibleRun : Manager → List (CallEnv × LeaseCall) → Prop
  | _, [] => True
  | m, (env, call) :: calls =>
    Admissible env m.memory call ∧ AdmissibleRun (runCall env call m) calls

instance : ∀ env m call, Decidable (Admissible env m call)
  | _, m, .register r => inferInstanceAs (Decidable (_ ∉ m.irrevocable ∧ r.leaseID ∉ m.nonexpiring))
  | _, m, .registerAuth r =>
    inferInstanceAs (Decidable (_ ∉ m.irrevocable ∧ r.leaseID ∉ m.nonexpiring))
  | _, _, .renew _ => isTrue trivial
  | _, _, .renewToken _ => isTrue trivial
  | _, m, .lazyRevoke id => inferInstanceAs (Decidable (id ∉ m.nonexpiring))
  | _, m, .revoke id force skipToken backendErr =>
    inferInstanceAs (Decidable
      (id ∉ m.irrevocable ∨ (force = false ∧ skipToken = false ∧ backendErr ≠ none)))
  | env, _, .revocationFailed _ _ _ => inferInstanceAs (Decidable (env.persistErr = none))

instance decidableAdmissibleRun : ∀ m calls, Decidable (AdmissibleRun m calls)
  | _, [] => isTrue trivial
  | m, (env, call) :: calls =>
    have := decidableAdmissibleRun (runCall env call m) calls
    inferInstanceAs (Decidable (Admissible env m.memory call ∧ _))

theorem sound_rolledBack {m : Manager} (h : Sound m) : Sound (rollbackRegistration env r m) := by
  rw [rollbackRegistration]
  split
  · exact h
  · exact sound_erased h r.leaseID

theorem sound_register {m : Manager} (h : Sound m)
    (hadmissible : Admissible env m.memory (.register r)) : Sound (register env r m).2 := by
  obtain ⟨hirrevocable, hnonexpiring⟩ := hadmissible
  rw [register]
  split
  · exact h
  split
  · exact sound_rolledBack h
  rename_i le hle
  obtain ⟨hid, hrevocable⟩ := registeredLease_ok hle
  rw [← hid] at hirrevocable hnonexpiring
  have hmarked : le.leaseID ∈ m.memory.irrevocable ↔ le.isIrrevocable = true :=
    ⟨fun hmem => absurd hmem hirrevocable, fun hmark => by rw [hrevocable] at hmark; cases hmark⟩
  have hpersisted := sound_persisted h hmarked hnonexpiring
  split
  · exact sound_rolledBack h
  split
  · exact sound_rolledBack hpersisted
  · split
    · exact sound_rolledBack hpersisted
    · exact sound_updated h hmarked hnonexpiring (.inr hrevocable)

theorem sound_registerAuth {r : AuthRegistration} {m : Manager} (h : Sound m)
    (hadmissible : Admissible env m.memory (.registerAuth r)) :
    Sound (registerAuth env r m).2 := by
  obtain ⟨hirrevocable, hnonexpiring⟩ := hadmissible
  have hmarked : (registeredAuth r env.now).leaseID ∈ m.memory.irrevocable ↔
      (registeredAuth r env.now).isIrrevocable = true :=
    ⟨fun hmem => absurd hmem hirrevocable, fun hmark => nomatch hmark⟩
  rw [registerAuth]
  split
  · exact h
  split
  · exact h
  split
  · exact h
  split
  · exact h
  split
  · exact h
  · split
    · exact sound_persisted h hmarked hnonexpiring
    · exact sound_updated h hmarked hnonexpiring (.inr rfl)

theorem sound_renewed {grants : LeaseEntry → Span → Prop} {m n : Manager} (h : Sound m)
    (hrenews : Renews env id grants m n) : Sound n := by
  rcases hrenews with rfl |
    ⟨le, renewed, answer, ttl, hstored, hrenewable, -, ⟨hid, herr, -, -⟩, hnext⟩
  · exact h
  obtain ⟨hrevocable, hexpire⟩ := renewable_ok hrenewable
  have hsame : renewed.isIrrevocable = le.isIrrevocable := by
    rw [LeaseEntry.isIrrevocable, herr]
    rfl
  rw [h.backed.named id le hstored] at hid
  have hmarked := h.backed.irrevocable id le hstored
  rw [← hid, ← hsame] at hmarked
  have hnonexpiring : renewed.leaseID ∉ m.memory.nonexpiring := by
    rw [hid]
    exact fun hmem => hexpire (h.backed.nonexpiring id le hstored hmem)
  rcases hnext with rfl | rfl
  · exact sound_persisted h hmarked hnonexpiring
  · exact sound_updated h hmarked hnonexpiring (.inr (hsame.trans hrevocable))

theorem sound_lazyRevoke {m : Manager} (h : Sound m)
    (hadmissible : Admissible env m.memory (.lazyRevoke id)) : Sound (lazyRevoke env id m).2 := by
  rw [lazyRevoke]
  split
  · exact h
  · exact h
  rename_i le hload
  have hstored := loadEntry_ok hload
  have hid := h.backed.named id le hstored
  subst hid
  split
  · exact h
  · exact sound_updated h (h.backed.irrevocable le.leaseID le hstored) hadmissible
      (.inl (Option.some_ne_none _))

theorem sound_finishRevocation {force skipToken : Bool} {m : Manager} (h : Sound m)
    (hid : id ∉ m.memory.irrevocable) :
    Sound (finishRevocation env id force skipToken le m).2 := by
  rw [finishRevocation]
  split
  · exact h
  have herased := sound_erased h le.leaseID
  split
  · exact herased
  · exact sound_cleared herased hid

theorem revokeEntry_fails {backendErr : Option GoError} (h : backendErr ≠ none) :
    revokeEntry le backendErr ≠ none := by
  obtain ⟨err, rfl⟩ := Option.ne_none_iff_exists'.mp h
  rw [revokeEntry]
  split
  · split
    · exact Option.some_ne_none _
    · split
      · exact Option.some_ne_none _
      · exact Option.some_ne_none _
  · exact Option.some_ne_none _

theorem sound_revokeCommon {force skipToken : Bool} {backendErr : Option GoError} {m : Manager}
    (h : Sound m) (hadmissible : Admissible env m.memory (.revoke id force skipToken backendErr)) :
    Sound (revokeCommon env id force skipToken backendErr m).2 := by
  rw [revokeCommon]
  split
  · exact h
  · exact h
  rcases hadmissible with hid | ⟨rfl, rfl, hfails⟩
  · split
    · exact sound_finishRevocation h hid
    · split
      · exact sound_finishRevocation h hid
      · exact h
  split
  · rename_i hnone
    exact absurd hnone (revokeEntry_fails hfails)
  · exact h

theorem sound_onFailure {id text : GoString} {unrecoverable : Bool} {m : Manager} (h : Sound m)
    (hpersist : env.persistErr = none) :
    Sound (onFailure env id text unrecoverable m) := by
  rw [onFailure]
  split
  · exact h
  rename_i info hinfo
  have hpending := mem_of_lookup hinfo
  by_cases hlast : maxRevokeAttempts ≤ info.revokesAttempted + 1 ∨ unrecoverable = true
  · simp only [if_pos hlast]
    split
    · exact h
    · exact h
    · rename_i le hload
      exact sound_marked h hpersist hpending (loadEntry_ok hload)
  simp only [if_neg hlast]
  exact ⟨h.exact.moved (moved_pending h.exact hpending _),
    cached_insert h.cached id (h.cached id info hinfo),
    ⟨h.backed.named, h.backed.irrevocable, h.backed.nonexpiring⟩⟩

theorem sound_runCall {call : LeaseCall} {m : Manager} (h : Sound m)
    (hadmissible : Admissible env m.memory call) : Sound (runCall env call m) := by
  cases call with
  | register r => exact sound_register h hadmissible
  | registerAuth r => exact sound_registerAuth h hadmissible
  | renew r => exact sound_renewed h (renew_renews env r m)
  | renewToken r => exact sound_renewed h (renewToken_renews env r m)
  | lazyRevoke id => exact sound_lazyRevoke h hadmissible
  | revoke id force skipToken backendErr => exact sound_revokeCommon h hadmissible
  | revocationFailed id text unrecoverable => exact sound_onFailure h hadmissible

theorem sound_runCalls {m : Manager} {calls : List (CallEnv × LeaseCall)} (h : Sound m)
    (hrun : AdmissibleRun m calls) : Sound (runCalls m calls) := by
  induction calls generalizing m with
  | nil => exact h
  | cons call calls ih => exact ih (sound_runCall h hrun.1) hrun.2

theorem sound_empty : Sound {} := by
  have hlookup : ∀ (id : GoString) (le : LeaseEntry),
      AList.lookup id (∅ : AList (fun _ : GoString => LeaseEntry)) ≠ some le := by
    intro id le h
    cases h
  refine ⟨⟨rfl, rfl, fun id h => ?_, fun id h => ?_, fun id h => ?_, fun id => rfl⟩, ?_,
    ⟨fun id le h => absurd h (hlookup id le), fun id le h => absurd h (hlookup id le),
      fun id le h => absurd h (hlookup id le)⟩⟩
  · exact absurd h (AList.notMem_empty id)
  · exact absurd h (AList.notMem_empty id)
  · exact absurd h (AList.notMem_empty id)
  · intro id info h
    cases h

def sampleSecret : LeaseCall :=
  .register { leaseID := [1], secret := { ttl := 3600, renewable := true } }

def sampleRoot : LeaseCall :=
  .registerAuth
    { leaseID := [2]
      auth := { policies := [ofString "root"] }
      tokenPolicies := [ofString "root"] }

/-- The counters are exact after every admissible run. -/
theorem counters_exact (calls : List (CallEnv × LeaseCall)) (hrun : AdmissibleRun {} calls) :
    Exact (runCalls {} calls).memory :=
  (sound_runCalls sound_empty hrun).exact

def sampleCalls : List (CallEnv × LeaseCall) :=
  [({}, sampleSecret), ({}, sampleRoot),
    ({}, .renew
      { leaseID := [1]
        sysView := some { defaultLeaseTTL := 60, maxLeaseTTL := 7200 }
        reply := .ok (.renewed { ttl := 1800, renewable := true } []) }),
    ({}, .lazyRevoke [1]), ({}, .revocationFailed [1] [3] true), ({}, .revoke [2] false false none)]

theorem sampleCalls_exact :
    Exact (runCalls {} sampleCalls).memory ∧
      (runCalls {} sampleCalls).memory.irrevocable.keys = [[1]] :=
  ⟨counters_exact sampleCalls (by decide +kernel), by decide +kernel⟩

def forcedRevocation : LeaseMemory :=
  (runCalls {} [({}, sampleSecret), ({}, .revocationFailed [1] [3] true),
    ({}, .revoke [1] true false none)]).memory

def lazyRootRevocation : LeaseMemory :=
  (runCalls {} [({}, sampleRoot), ({}, .lazyRevoke [2])]).memory

/-- The irrevocable lease is still counted by manager and quotas after it is gone, and a root token
that is revoked lazily is in two maps. -/
theorem irrevocable_stays_counted :
    (forcedRevocation.leaseCount = 1 ∧ forcedRevocation.pending.keys = [] ∧
      forcedRevocation.irrevocable.keys = [] ∧ outstanding forcedRevocation.reported [1] = 1) ∧
    (lazyRootRevocation.pending.keys = [[2]] ∧ lazyRootRevocation.nonexpiring.keys = [[2]]) ∧
    ¬ Exact forcedRevocation ∧ ¬ Exact lazyRootRevocation := by
  refine ⟨by decide +kernel, by decide +kernel, fun h => ?_, fun h => ?_⟩
  · exact absurd h.leaseCount (by decide +kernel)
  · exact absurd (h.notPendingNonexpiring [2]) (by decide +kernel)

end VaultProofs.LeaseCounters
