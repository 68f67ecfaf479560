import VaultProofs.HandlerProtocols

/-!
Concurrent calls on one entry. Storage has no compare-and-swap, and every handler writes the whole
entry from its copy. A schedule is free of stale writes when no call writes after somebody else has
written since the call last read or wrote.
-/

namespace VaultProofs.EntryRaces

open ConcurrentPrograms SharedCells ApprovalEntries VaultEffects ApprovalInterceptor
open ApprovalHandlers EntryCell ApprovalProtocol HandlerProtocols

inductive EntryCall where
  | approve (req : Request)
  | deny (req : Request)
  | fetch (req : Request)

namespace EntryCall

def prog (core : Core) (id : String) : EntryCall → VaultProg Reply
  | .approve req => handleApprovalApprove core req id
  | .deny req => handleApprovalDeny core req id
  | .fetch req => handleApprovalFetch core req id

def role : EntryCall → Role
  | .approve req => .approver req.entityID
  | .deny _ => .denier
  | .fetch _ => .fetcher

def final (id : String) : EntryCall → Phase → Reply → Prop
  | .approve _ => approveFinal
  | .deny _ => denyFinal
  | .fetch _ => fetchFinal id

theorem prog_follows (core : Core) (id : String) (call : EntryCall) :
    (entryProtocol id call.role).Follows (call.final id) .idle (call.prog core id) := by
  cases call with
  | approve req => exact handleApprovalApprove_follows core req id
  | deny req => exact handleApprovalDeny_follows core req id
  | fetch req => exact handleApprovalFetch_follows core req id

end EntryCall

variable {ι : Type}

abbrev EntrySnapshot (ι : Type) := Snapshot ι (Option PendingRequest) Phase

def Tracked (id : String) (calls : ι → EntryCall) (K : EntrySnapshot ι → Prop) :
    Pool vault ι World Reply → Prop :=
  Pool.Tracks (fun i => entryProtocol id (calls i).role) (fun i => (calls i).final id)
    ((entryView id).related K)

def startCalls (core : Core) (id : String) (calls : ι → EntryCall) (w : World) :
    Pool vault ι World Reply :=
  Pool.start w fun i => (calls i).prog core id

def startSnapshot (id : String) (w : World) : EntrySnapshot ι where
  cell := storedPending w.store id
  signals := w.routed.length
  version := 0
  seen := fun _ => 0
  phases := fun _ => .idle

variable {id : String}

theorem tracked_start (core : Core) (calls : ι → EntryCall) {K : EntrySnapshot ι → Prop} {w : World}
    (hK : K (startSnapshot id w)) :
    Tracked id calls K (startCalls core id calls w) :=
  ⟨fun _ => .idle, fun i => (calls i).prog_follows core id, hK⟩

variable {i : ι}

theorem final_of_ret {calls : ι → EntryCall} {phases : ι → Phase} {c : Pool vault ι World Reply}
    (hphases : Pool.InPhases (fun i => entryProtocol id (calls i).role)
      (fun i => (calls i).final id) phases c.threads) {reply : Reply}
    (hreply : c.threads i = .ret reply) : (calls i).final id (phases i) reply := by
  have hfollows := hphases i
  rw [hreply] at hfollows
  exact hfollows

/-- What approve and deny calls keep while no copy is stale: at most one call executes, and until
its last write the stored entry is the one it marked. -/
structure Sound (id : String) (s : EntrySnapshot ι) : Prop where
  keyed : ∀ p, s.cell = some p → p.requestID = id
  current : s.Current Phase.copy
  running : ∀ i x, (s.phases i).running = some x →
    s.seen i = s.version ∧ s.cell = some x ∧ x.status = .approved
  unique : ∀ i j x y, (s.phases i).running = some x → (s.phases j).running = some y → i = j

variable {s : EntrySnapshot ι}

theorem Sound.cell_of_holding (hs : Sound id s) {p : PendingRequest} (hp : s.phases i = .holding p)
    (hseen : s.seen i = s.version) :
    s.cell = some p :=
  hs.current.cell_eq i (some p) (by rw [hp]; rfl) hseen

variable {role : Role} {q : Phase} {x : PendingRequest}

theorem Sound.writer_eq (hs : Sound id s) {i j : ι} {value : Option PendingRequest}
    (hseen : s.seen i = s.version) (hmove : Move id role (s.phases i) (.write value) q)
    (hrole : role ≠ .fetcher) (hj : (s.phases j).running = some x) : j = i := by
  obtain ⟨-, hcell, hstatus⟩ := hs.running j x hj
  rcases hmove.writer hrole with ⟨p, hp, hpending⟩ | ⟨y, hy⟩
  · have hcell' := hs.cell_of_holding hp hseen
    rw [hcell, Option.some.injEq] at hcell'
    rw [hcell', hpending] at hstatus
    cases hstatus
  · exact hs.unique j i x y hj hy

theorem sound_start {w : World}
    (hkeyed : ∀ p, storedPending w.store id = some p → p.requestID = id) :
    Sound id (startSnapshot id w : EntrySnapshot ι) where
  keyed := hkeyed
  current := ⟨fun _ => Nat.le_refl 0, fun _ _ h => by cases h⟩
  running _ _ h := by cases h
  unique _ _ _ _ h := by cases h

variable [DecidableEq ι]

def interleave (core : Core) (id : String) (calls : ι → EntryCall) (w : World)
    (schedule : List (ι × Env)) : Pool vault ι World Reply :=
  Pool.runSchedule (entryMachine id) schedule (startCalls core id calls w)

def NoStaleWrites (core : Core) (id : String) (calls : ι → EntryCall) (w : World)
    (schedule : List (ι × Env)) : Prop :=
  Pool.NoStaleWrite (entryMachine id) schedule (startCalls core id calls w)

instance (core : Core) (id : String) (calls : ι → EntryCall) (w : World)
    (schedule : List (ι × Env)) : Decidable (NoStaleWrites core id calls w schedule) :=
  inferInstanceAs (Decidable (Pool.NoStaleWrite _ _ _))

theorem tracked_runSchedule {calls : ι → EntryCall} {K : EntrySnapshot ι → Prop} {good : Env → Prop}
    {allowed : EntryEvent → Prop} (hreliable : ∀ env, good env → env.Reliable)
    (hkeyed : ∀ s, K s → ∀ p, s.cell = some p → p.requestID = id)
    (hallowed : ∀ env, good env → ∀ op w, allowed (entryEvent id op (exec env op w).1))
    (hmove : ∀ s i event q, K s → s.Enabled i event → allowed event →
      Move id (calls i).role (s.phases i) event q → K (s.after i event q))
    {schedule : List (ι × Env)} {c : Pool vault ι World Reply}
    (hgood : ∀ move ∈ schedule, good move.2)
    (hfresh : Pool.NoStaleWrite (entryMachine id) schedule c) (hc : Tracked id calls K c) :
    Tracked id calls K (Pool.runSchedule (entryMachine id) schedule c) := by
  refine (entryView id).tracks_runSchedule (fun env h => entryView_faithful id (hreliable env h))
    ?_ hallowed hmove schedule c hgood hfresh hc
  intro env w version seen phases henv hK op
  have hok := hreliable env henv
  cases op with
  | storageGet key =>
    refine ⟨w.store.lookup key, by simp [entryMachine, exec, hok _ _], ?_⟩
    rintro rfl p hp
    exact hkeyed _ hK p hp
  | storagePut key value | storageDelete key => simp [entryMachine, exec, hok _ _, entryAdmits]
  | storageList folder | timeNow | generateUUID | doRouting req | registerLease req resp => trivial

variable {event : EntryEvent}

theorem keyed_after (hs : ∀ p, s.cell = some p → p.requestID = id)
    (hmove : Move id role (s.phases i) event q) :
    ∀ p, (s.after i event q).cell = some p → p.requestID = id := by
  intro p hp
  cases event with
  | write value =>
    obtain rfl : value = some p := hp
    exact hmove.requestID_eq
  | quiet | read value | signal good => exact hs p hp

theorem Sound.running_before (hs : Sound id s) {i j : ι} (hen : s.Enabled i event)
    (hmove : Move id role (s.phases i) event q) (hrole : role ≠ .fetcher) (hij : j ≠ i)
    (hj : ((s.after i event q).phases j).running = some x) :
    (s.phases j).running = some x ∧ event.access ≠ .write := by
  rw [Snapshot.after_phases_of_ne s event q hij] at hj
  refine ⟨hj, ?_⟩
  intro haccess
  cases event with
  | write value => exact hij (hs.writer_eq hen hmove hrole hj)
  | _ => cases haccess

theorem Sound.running_stays (hs : Sound id s) {i j : ι} (q : Phase)
    (hj : (s.phases j).running = some x) (haccess : event.access ≠ .write) :
    (s.after i event q).seen j = (s.after i event q).version ∧
      (s.after i event q).cell = some x ∧ x.status = .approved := by
  obtain ⟨hseen, hcell, hstatus⟩ := hs.running j x hj
  cases event with
  | quiet | signal good => exact ⟨hseen, hcell, hstatus⟩
  | read value =>
    refine ⟨?_, hcell, hstatus⟩
    by_cases hij : j = i
    · simp [Snapshot.after, Event.access, Pool.nextSeen, Pool.nextVersion, hij]
    · simpa [Snapshot.after, Event.access, Pool.nextSeen, Pool.nextVersion, hij] using hseen
  | write value => exact absurd rfl haccess

omit [DecidableEq ι] in
theorem Sound.not_running {id : String} {role : Role} {s : EntrySnapshot ι} (hs : Sound id s)
    {i j : ι} {event : EntryEvent} {q : Phase} {x y : PendingRequest}
    (hmove : Move id role (s.phases i) event q) (hij : j ≠ i) (hq : q.running = some x)
    (hj : (s.phases j).running = some y) (haccess : event.access ≠ .write) : False := by
  rcases hmove.running_eq hq with ⟨p, -, -, rfl, -⟩ | ⟨hold, -⟩
  · exact haccess rfl
  · exact hij (hs.unique j i y x hj hold)

theorem Sound.after (hs : Sound id s) (hen : s.Enabled i event)
    (hmove : Move id role (s.phases i) event q) (hrole : role ≠ .fetcher) :
    Sound id (s.after i event q) := by
  refine ⟨keyed_after hs.keyed hmove, hs.current.after hen hmove.copy_eq, ?_, ?_⟩
  · intro j x hj
    by_cases hij : j = i
    · subst hij
      rw [Snapshot.after_phases_self] at hj
      rcases hmove.running_eq hj with ⟨p, -, -, rfl, hstatus⟩ | ⟨hold, haccess⟩
      · refine ⟨?_, rfl, hstatus⟩
        simp [Snapshot.after, Event.access, Pool.nextSeen, Pool.nextVersion]
      · exact hs.running_stays q hold haccess
    · obtain ⟨hold, haccess⟩ := hs.running_before hen hmove hrole hij hj
      exact hs.running_stays q hold haccess
  intro j k x y hj hk
  by_cases hji : j = i
  · by_cases hki : k = i
    · rw [hji, hki]
    · subst hji
      rw [Snapshot.after_phases_self] at hj
      obtain ⟨hold, haccess⟩ := hs.running_before hen hmove hrole hki hk
      exact (hs.not_running hmove hki hj hold haccess).elim
  obtain ⟨hold, haccess⟩ := hs.running_before hen hmove hrole hji hj
  by_cases hki : k = i
  · subst hki
    rw [Snapshot.after_phases_self] at hk
    exact (hs.not_running hmove hji hk hold haccess).elim
  · obtain ⟨hold', -⟩ := hs.running_before hen hmove hrole hki hk
    exact hs.unique j k x y hold hold'

def sampleCaller : Bool → Request
  | true => { entityID := "alice" }
  | false => { entityID := "bob" }

def lockstep (n : Nat) : List (Bool × Env) :=
  (List.replicate n [(true, sampleEnv), (false, sampleEnv)]).flatten

def inTurn (n : Nat) : List (Bool × Env) :=
  List.replicate n (true, sampleEnv) ++ List.replicate n (false, sampleEnv)

theorem env_eq_of_mem_lockstep {n : Nat} {move : Bool × Env} (hmove : move ∈ lockstep n) :
    move.2 = sampleEnv := by
  simp only [lockstep, List.mem_flatten, List.mem_replicate] at hmove
  obtain ⟨moves, ⟨-, rfl⟩, hmem⟩ := hmove
  rcases List.mem_pair.mp hmem with rfl | rfl <;> rfl

theorem env_eq_of_mem_inTurn {n : Nat} {move : Bool × Env} (hmove : move ∈ inTurn n) :
    move.2 = sampleEnv := by
  simp only [inTurn, List.mem_append, List.mem_replicate] at hmove
  rcases hmove with ⟨-, rfl⟩ | ⟨-, rfl⟩ <;> rfl

theorem sampleEnv_reliable : sampleEnv.Reliable :=
  fun _ _ => rfl

theorem keyed_parkedWorld (approvalsRequired : Int) :
    ∀ p, storedPending (parkedWorld approvalsRequired).store "r1" = some p →
      p.requestID = "r1" := by
  have hstored : storedPending (parkedWorld approvalsRequired).store "r1" =
      some sampleEntry.normalize := rfl
  intro p hp
  obtain rfl := Option.some.inj (hstored.symm.trans hp)
  rfl

end VaultProofs.EntryRaces
