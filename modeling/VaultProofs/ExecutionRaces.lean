import VaultProofs.EntryRaces

/-!
How often concurrent approve calls dispatch the parked request.
-/

namespace VaultProofs.ExecutionRaces

open SharedCells VaultEffects ApprovalInterceptor EntryCell ApprovalProtocol EntryRaces

variable {ι : Type}

/-- A call that may still dispatch, or that will roll its mark back. -/
def Undecided : Phase → Prop
  | .marked _ | .cleared _ | .failed _ => True
  | _ => False

/-- The entry is no longer pending and no call is about to dispatch. -/
structure Settled (s : EntrySnapshot ι) : Prop where
  cell : ∀ p, s.cell = some p → p.status ≠ .pending
  phases : ∀ i, ¬ Undecided (s.phases i)

variable {q : Phase}

theorem running_of_undecided (hq : Undecided q) : ∃ x, q.running = some x := by
  cases q with
  | marked x | cleared x | failed x => exact ⟨x, rfl⟩
  | _ => exact hq.elim

variable [DecidableEq ι]

theorem Settled.after {id : String} {role : Role} {s : EntrySnapshot ι} (hset : Settled s)
    (hs : Sound id s) {i : ι} {event : EntryEvent} (hen : s.Enabled i event)
    (hmove : Move id role (s.phases i) event q) (hrole : role ≠ .fetcher) :
    Settled (s.after i event q) ∧ (s.after i event q).signals = s.signals := by
  have hholding : ∀ p, s.phases i = .holding p → p.status = .pending →
      s.seen i = s.version → False := by
    intro p hp hpending hseen
    exact hset.cell p (hs.cell_of_holding hp hseen) hpending
  have hphases : ∀ j, ¬ Undecided q → ¬ Undecided ((s.after i event q).phases j) := by
    intro j hq
    by_cases hij : j = i
    · subst hij
      rwa [Snapshot.after_phases_self]
    · rw [Snapshot.after_phases_of_ne s event q hij]
      exact hset.phases j
  have hi := hset.phases i
  generalize hphase : s.phases i = q₀ at hmove hi
  cases hmove with
  | quiet => exact ⟨⟨hset.cell, fun j => hphases j hi⟩, rfl⟩
  | absent | take => exact ⟨⟨hset.cell, fun j => hphases j fun h => h⟩, rfl⟩
  | remove hp | deny hp => exact (hholding _ hphase hp hen).elim
  | vote hvote | mark hvote => exact (hholding _ hphase hvote.pending hen).elim
  | rereadDone | reread | abort | dispatch | dispatchFailed | rollback => exact (hi trivial).elim
  | @execute _ x y hstatus =>
    obtain ⟨-, -, happroved⟩ := hs.running i x (by rw [hphase]; rfl)
    refine ⟨⟨?_, fun j => hphases j fun h => h⟩, rfl⟩
    rintro p ⟨⟩
    rw [hstatus, happroved]
    exact fun h => by cases h
  | _ => exact absurd rfl hrole

/-- At most one dispatch on top of `n`, after which the entry is settled. -/
def OneDispatch (id : String) (n : Nat) (s : EntrySnapshot ι) : Prop :=
  Sound id s ∧ (s.signals = n ∨ (s.signals = n + 1 ∧ Settled s))

theorem OneDispatch.after {id : String} {role : Role} {n : Nat} {s : EntrySnapshot ι}
    (hs : OneDispatch id n s) {i : ι} {event : EntryEvent} (hen : s.Enabled i event)
    (hgood : event ≠ .signal false) (hmove : Move id role (s.phases i) event q)
    (hrole : role ≠ .fetcher) :
    OneDispatch id n (s.after i event q) := by
  obtain ⟨hsound, hcount⟩ := hs
  refine ⟨hsound.after hen hmove hrole, ?_⟩
  rcases hcount with hcount | ⟨hcount, hset⟩
  · cases event with
    | quiet | read value | write value => exact .inl hcount
    | signal good =>
      right
      refine ⟨by simp [Snapshot.after, Event.signalsAfter, hcount], ?_⟩
      generalize hphase : s.phases i = q₀ at hmove
      cases hmove with
      | dispatchFailed => exact absurd rfl hgood
      | @dispatch _ x =>
        have hrunning : (s.phases i).running = some x := by rw [hphase]; rfl
        obtain ⟨-, hcell, happroved⟩ := hsound.running i x hrunning
        constructor
        · intro p hp
          obtain rfl : x = p := Option.some.inj (hcell.symm.trans hp)
          rw [happroved]
          exact fun h => by cases h
        intro j hj
        by_cases hij : j = i
        · subst hij
          rw [Snapshot.after_phases_self] at hj
          exact hj
        · rw [Snapshot.after_phases_of_ne s _ _ hij] at hj
          obtain ⟨y, hy⟩ := running_of_undecided hj
          exact hij (hsound.unique j i y x hy hrunning)
  · obtain ⟨hset', hsignals⟩ := hset.after hsound hen hmove hrole
    exact .inr ⟨hsignals.trans hcount, hset'⟩

structure Succeeds (env : Env) : Prop where
  reliable : env.Reliable
  backend : ∀ req, (env.backend req).err = none

theorem Succeeds.event_ne {env : Env} (henv : Succeeds env) (id : String) (op : VaultOp)
    (w : World) : entryEvent id op (exec env op w).1 ≠ .signal false := by
  cases op with
  | doRouting req =>
    have hevent : entryEvent id (.doRouting req) (exec env (.doRouting req) w).1 =
        .signal (env.backend req).err.isNone := rfl
    rw [hevent, henv.backend req]
    exact fun h => by cases h
  | storageGet key | storagePut key value | storageDelete key =>
    by_cases hkey : key = pendingKey id <;>
      simp [entryEvent, exec, henv.reliable _ _, hkey]
  | storageList folder => simp [entryEvent]
  | timeNow | generateUUID | registerLease req resp => exact fun h => by cases h

/-- In every interleaving of approve calls on one entry without writes from stale copies, the parked
request is dispatched at most once. -/
theorem routed_length_le (core : Core) (id : String) (callers : ι → Request) (w : World)
    (hkeyed : ∀ p, storedPending w.store id = some p → p.requestID = id)
    (schedule : List (ι × Env)) (henv : ∀ move ∈ schedule, Succeeds move.2)
    (hfresh : NoStaleWrites core id (fun i => .approve (callers i)) w schedule) :
    (interleave core id (fun i => .approve (callers i)) w schedule).state.routed.length ≤
      w.routed.length + 1 := by
  have hstart : Tracked id (fun i => .approve (callers i)) (OneDispatch id w.routed.length)
      (startCalls core id (fun i => .approve (callers i)) w) :=
    tracked_start core _ ⟨sound_start hkeyed, .inl rfl⟩
  obtain ⟨phases, -, -, hcount⟩ := tracked_runSchedule (fun env h => h.reliable)
    (fun s h => h.1.keyed) (fun env h => h.event_ne id)
    (fun s i event q hs hen hgood hmove => hs.after hen hgood hmove fun h => by cases h)
    henv hfresh hstart
  change (interleave core id (fun i => .approve (callers i)) w schedule).state.routed.length = _ ∨
    (interleave core id (fun i => .approve (callers i)) w schedule).state.routed.length = _ ∧ _
    at hcount
  rcases hcount with hcount | ⟨hcount, -⟩ <;> omega

theorem sampleEnv_succeeds : Succeeds sampleEnv :=
  ⟨sampleEnv_reliable, fun _ => rfl⟩

/-- With one required approval, two approvers in lockstep both read the entry as pending and both
dispatch it. -/
theorem routed_twice_lockstep :
    (∀ move ∈ lockstep 10, Succeeds move.2) ∧
    (interleave sampleCore "r1" (fun i => .approve (sampleCaller i)) (parkedWorld 1)
      (lockstep 10)).state.routed.length = (parkedWorld 1).routed.length + 2 := by
  refine ⟨?_, by decide⟩
  intro move hmove
  rw [env_eq_of_mem_lockstep hmove]
  exact sampleEnv_succeeds

theorem routed_length_le_inTurn :
    (interleave sampleCore "r1" (fun i => .approve (sampleCaller i)) (parkedWorld 1)
      (inTurn 10)).state.routed.length ≤ (parkedWorld 1).routed.length + 1 := by
  refine routed_length_le sampleCore "r1" sampleCaller (parkedWorld 1) (keyed_parkedWorld 1)
    (inTurn 10) ?_ (by decide)
  intro move hmove
  rw [env_eq_of_mem_inTurn hmove]
  exact sampleEnv_succeeds

end VaultProofs.ExecutionRaces
