import VaultProofs.EntryRaces

/-!
Fetch calls that race for one credential.
-/

namespace VaultProofs.FetchRaces

open GoStrings SharedCells ApprovalEntries VaultEffects ApprovalInterceptor EntryCell
open ApprovalProtocol HandlerProtocols EntryRaces

variable {ι : Type}

def HasBurned (q : Phase) : Prop :=
  q = .burned ∨ q = .released

/-- One call at most has taken the credential, and then the entry has none. -/
structure BurnedOnce (id : String) (s : EntrySnapshot ι) : Prop where
  keyed : ∀ p, s.cell = some p → p.requestID = id
  current : s.Current Phase.copy
  gone : ∀ i p, HasBurned (s.phases i) → s.cell = some p → p.credentialData = none
  unique : ∀ i j, HasBurned (s.phases i) → HasBurned (s.phases j) → i = j

variable {id : String} {s : EntrySnapshot ι}

theorem BurnedOnce.not_burned (hs : BurnedOnce id s) {p : PendingRequest} (hcell : s.cell = some p)
    (hp : p.credentialData.isSome = true) (j : ι) :
    ¬ HasBurned (s.phases j) := by
  intro hj
  rw [hs.gone j p hj hcell] at hp
  cases hp

variable [DecidableEq ι]

/-- A step keeps the invariant if it leaves the cell or one without credential, and a call that has
then burned the credential had done so before or is the first. -/
theorem BurnedOnce.after_of (hs : BurnedOnce id s) {i : ι} {event : EntryEvent} {q : Phase}
    (hen : s.Enabled i event) (hmove : Move id .fetcher (s.phases i) event q)
    (hcell : ∀ p, (s.after i event q).cell = some p → s.cell = some p ∨ p.credentialData = none)
    (hburned : HasBurned q → HasBurned (s.phases i) ∨ ∀ j, ¬ HasBurned (s.phases j))
    (hnone : HasBurned q → ∀ p, (s.after i event q).cell = some p → p.credentialData = none) :
    BurnedOnce id (s.after i event q) := by
  have hphase : ∀ j, HasBurned ((s.after i event q).phases j) → j ≠ i → HasBurned (s.phases j) := by
    intro j hj hij
    rwa [Snapshot.after_phases_of_ne s event q hij] at hj
  refine ⟨keyed_after hs.keyed hmove, hs.current.after hen hmove.copy_eq, ?_, ?_⟩
  · intro j p hj hp
    by_cases hij : j = i
    · subst hij
      rw [Snapshot.after_phases_self] at hj
      exact hnone hj p hp
    · rcases hcell p hp with hold | hgone
      · exact hs.gone j p (hphase j hj hij) hold
      · exact hgone
  have hother : ∀ j, j ≠ i → HasBurned q → ¬ HasBurned (s.phases j) := by
    intro j hij hq hj
    rcases hburned hq with hi | hnobody
    · exact hij (hs.unique j i hj hi)
    · exact hnobody j hj
  intro j k hj hk
  by_cases hji : j = i
  · by_cases hki : k = i
    · rw [hji, hki]
    · subst hji
      rw [Snapshot.after_phases_self] at hj
      exact (hother k hki hj (hphase k hk hki)).elim
  by_cases hki : k = i
  · subst hki
    rw [Snapshot.after_phases_self] at hk
    exact (hother j hji hk (hphase j hj hji)).elim
  · exact hs.unique j k (hphase j hj hji) (hphase k hk hki)

theorem not_hasBurned_over : ¬ HasBurned .over := by
  rintro (h | h) <;> cases h

theorem not_hasBurned_holding (p : PendingRequest) : ¬ HasBurned (.holding p) := by
  rintro (h | h) <;> cases h

theorem BurnedOnce.after (hs : BurnedOnce id s) {i : ι} {event : EntryEvent} {q : Phase}
    (hen : s.Enabled i event) (hmove : Move id .fetcher (s.phases i) event q) :
    BurnedOnce id (s.after i event q) := by
  have hcopy : ∀ p, s.phases i = .holding p → s.seen i = s.version → s.cell = some p :=
    fun p hp hseen => hs.current.cell_eq i (some p) (by rw [hp]; rfl) hseen
  have hkeep := hs.after_of hen hmove
  generalize hphase : s.phases i = q₀ at hmove hkeep hcopy
  cases hmove with
  | quiet =>
    exact hkeep (fun p hp => .inl hp) .inl fun hq p hp => hs.gone i p (by rwa [hphase]) hp
  | absent =>
    exact hkeep (fun p hp => .inl hp) (fun h => (not_hasBurned_over h).elim)
      fun h => (not_hasBurned_over h).elim
  | take =>
    exact hkeep (fun p hp => .inl hp) (fun h => (not_hasBurned_holding _ h).elim)
      fun h => (not_hasBurned_holding _ h).elim
  | remove | expire =>
    exact hkeep (fun p hp => by cases hp) (fun h => (not_hasBurned_over h).elim)
      fun h => (not_hasBurned_over h).elim
  | burn hp hy =>
    refine hkeep ?_ (fun _ => .inr (hs.not_burned (hcopy _ rfl hen) hp)) ?_
    · rintro _ ⟨⟩
      exact .inr hy
    · rintro _ _ ⟨⟩
      exact hy
  | release =>
    exact hkeep (fun p hp => by cases hp) (fun _ => .inl (.inl rfl)) fun _ p hp => by cases hp
  | releaseUnmarked hp =>
    exact hkeep (fun p hp => by cases hp)
      (fun _ => .inr (hs.not_burned (hcopy _ rfl hen) hp)) fun _ p hp => by cases hp

/-- In every interleaving of fetch calls on one entry without writes from stale copies, at most one
call returns the credential. -/
theorem credential_delivered_once (core : Core) (id : String) (callers : ι → Request)
    (w : World) (hkeyed : ∀ p, storedPending w.store id = some p → p.requestID = id)
    (schedule : List (ι × Env)) (henv : ∀ move ∈ schedule, move.2.Reliable)
    (hfresh : NoStaleWrites core id (fun i => .fetch (callers i)) w schedule)
    (i j : ι) (reply reply' : Reply)
    (hi : (interleave core id (fun i => .fetch (callers i)) w schedule).threads i = .ret reply)
    (hj : (interleave core id (fun i => .fetch (callers i)) w schedule).threads j = .ret reply')
    (hreply : DeliversCredential id reply) (hreply' : DeliversCredential id reply') : i = j := by
  have hstart : Tracked id (fun i => .fetch (callers i)) (BurnedOnce id)
      (startCalls core id (fun i => .fetch (callers i)) w) := by
    refine tracked_start core _ ⟨hkeyed, (sound_start hkeyed).current, ?_, ?_⟩
    · rintro i p (h | h) <;> cases h
    · rintro i j (h | h) <;> cases h
  obtain ⟨phases, hphases, hburned⟩ := tracked_runSchedule (fun env h => h)
    (fun s h => h.keyed) (fun _ _ _ _ => trivial)
    (fun s i event q hs hen (_ : True) hmove => hs.after hen hmove) henv hfresh hstart
  have hreleased : ∀ k answer,
      (interleave core id (fun i => .fetch (callers i)) w schedule).threads k = .ret answer →
      DeliversCredential id answer → phases k = .released := by
    intro k answer hthread hdelivers
    exact final_of_ret hphases hthread hdelivers
  exact hburned.unique i j (.inr (hreleased i reply hi hreply))
    (.inr (hreleased j reply' hj hreply'))

def approvedEntry : PendingRequest :=
  { sampleEntry with
    approvals := [⟨"alice", 1⟩]
    status := .approved
    credentialData := some [(ofString "password", textValue "s3cr3t")]
    approvedAt := 1 }

def approvedWorld : World where
  store := (∅ : Store).insert (pendingKey "r1") (PendingRequest.blob approvedEntry)

theorem keyed_approvedWorld :
    ∀ p, storedPending approvedWorld.store "r1" = some p → p.requestID = "r1" := by
  have hstored : storedPending approvedWorld.store "r1" = some approvedEntry.normalize := rfl
  intro p hp
  obtain rfl := Option.some.inj (hstored.symm.trans hp)
  rfl

/-- Two fetch calls of the requester in lockstep both return the credential. -/
theorem credential_delivered_twice_lockstep :
    (∀ move ∈ lockstep 6, move.2.Reliable) ∧
    ∀ i, ∃ reply, DeliversCredential "r1" reply ∧
      (interleave sampleCore "r1" (fun _ => .fetch sampleRequest) approvedWorld
        (lockstep 6)).threads i = .ret reply := by
  constructor
  · intro move hmove
    rw [env_eq_of_mem_lockstep hmove]
    exact sampleEnv_reliable
  intro i
  cases i with
  | true | false => exact ⟨_, ⟨approvedEntry.normalize, rfl, rfl⟩, rfl⟩

theorem credential_delivered_once_inTurn :
    (∃ reply, DeliversCredential "r1" reply ∧
      (interleave sampleCore "r1" (fun _ => .fetch sampleRequest) approvedWorld
        (inTurn 6)).threads true = .ret reply) ∧
    ¬ ∃ reply, DeliversCredential "r1" reply ∧
      (interleave sampleCore "r1" (fun _ => .fetch sampleRequest) approvedWorld
        (inTurn 6)).threads false = .ret reply := by
  have hfirst : ∃ reply, DeliversCredential "r1" reply ∧
      (interleave sampleCore "r1" (fun _ => .fetch sampleRequest) approvedWorld
        (inTurn 6)).threads true = .ret reply :=
    ⟨_, ⟨approvedEntry.normalize, rfl, rfl⟩, rfl⟩
  refine ⟨hfirst, ?_⟩
  obtain ⟨reply, hreply, hthread⟩ := hfirst
  rintro ⟨reply', hreply', hthread'⟩
  have hsame : true = false := by
    refine credential_delivered_once sampleCore "r1" (fun _ => sampleRequest) approvedWorld
      keyed_approvedWorld (inTurn 6) ?_ (by decide) true false reply reply' hthread hthread'
      hreply hreply'
    intro move hmove
    rw [env_eq_of_mem_inTurn hmove]
    exact sampleEnv_reliable
  cases hsame

end VaultProofs.FetchRaces
