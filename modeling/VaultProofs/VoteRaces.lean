import VaultProofs.EntryRaces

/-!
The votes of concurrent approve calls.
-/

namespace VaultProofs.VoteRaces

open SharedCells ApprovalEntries VaultEffects ApprovalInterceptor ApprovalHandlers EntryCell
open ApprovalProtocol HandlerProtocols EntryRaces

variable {ι : Type}

def votes (entityID : String) (p : PendingRequest) : Nat :=
  p.approvals.countP fun record => record.approverEntityID == entityID

variable {p x : PendingRequest}

theorem votes_self_of_addsVote {entityID : String} (hvote : AddsVote entityID p x)
    (hentity : entityID ≠ "") : votes entityID x = 1 := by
  obtain ⟨time, happrovals⟩ := hvote.approvals
  have hfirst : votes entityID p = 0 := by
    unfold votes
    rw [List.countP_eq_zero]
    intro record hrecord hsame
    have hvoted := hvote.first
    simp only [hasVoted, List.any_eq_false, Bool.and_eq_true, not_and] at hvoted
    exact hvoted record hrecord hsame (by simpa using hentity)
  unfold votes at hfirst ⊢
  rw [happrovals, List.countP_append, hfirst]
  simp

theorem votes_of_addsVote_of_ne {entityID other : String} (hvote : AddsVote entityID p x)
    (hother : entityID ≠ other) :
    votes other x = votes other p := by
  obtain ⟨time, happrovals⟩ := hvote.approvals
  unfold votes
  rw [happrovals, List.countP_append]
  simp [hother]

/-- The vote of the call is stored, or written in the course of its execution. -/
def HasCast (q : Phase) : Prop :=
  q = .accepted ∨ ∃ x, q.running = some x

/-- Some call has given up, or every vote that was cast is in the entry once. -/
def VotesKept (id : String) (entities : ι → String) (s : EntrySnapshot ι) : Prop :=
  Sound id s ∧ ((∃ i, s.phases i = .over) ∨
    ∀ i, HasCast (s.phases i) → ∃ p, s.cell = some p ∧ votes (entities i) p = 1)

variable [DecidableEq ι]

variable {s : EntrySnapshot ι} {event : EntryEvent} {q : Phase}

theorem over_after {id : String} {role : Role} {i j : ι} (hj : s.phases j = .over)
    (hmove : Move id role (s.phases i) event q) : (s.after i event q).phases j = .over := by
  by_cases hij : j = i
  · subst hij
    rw [hj] at hmove
    rw [Snapshot.after_phases_self]
    cases hmove
    rfl
  · rwa [Snapshot.after_phases_of_ne s event q hij]

def AllVotes (entities : ι → String) (s : EntrySnapshot ι) : Prop :=
  ∀ i, HasCast (s.phases i) → ∃ p, s.cell = some p ∧ votes (entities i) p = 1

variable {entities : ι → String} {i : ι}

theorem AllVotes.after_of_same (hs : AllVotes entities s)
    (hcell : ∀ p, s.cell = some p →
      ∃ y, (s.after i event q).cell = some y ∧ y.approvals = p.approvals)
    (hcast : HasCast q → HasCast (s.phases i)) : AllVotes entities (s.after i event q) := by
  intro j hj
  have hbefore : HasCast (s.phases j) := by
    by_cases hij : j = i
    · subst hij
      rw [Snapshot.after_phases_self] at hj
      exact hcast hj
    · rwa [Snapshot.after_phases_of_ne s event q hij] at hj
  obtain ⟨p, hp, hone⟩ := hs j hbefore
  obtain ⟨y, hy, hvotes⟩ := hcell p hp
  refine ⟨y, hy, ?_⟩
  unfold votes at hone ⊢
  rw [hvotes, hone]

theorem AllVotes.after_vote (hdistinct : Function.Injective entities)
    (hentity : ∀ i, entities i ≠ "") (hs : AllVotes entities s) (hcell : s.cell = some p)
    (hvote : AddsVote (entities i) p x) : AllVotes entities (s.after i (.write (some x)) q) := by
  intro j hj
  refine ⟨x, rfl, ?_⟩
  by_cases hij : j = i
  · subst hij
    exact votes_self_of_addsVote hvote (hentity j)
  rw [Snapshot.after_phases_of_ne s _ q hij] at hj
  obtain ⟨p', hcell', hone⟩ := hs j hj
  obtain rfl := Option.some.inj (hcell.symm.trans hcell')
  rw [votes_of_addsVote_of_ne hvote (hdistinct.ne (Ne.symm hij)), hone]

theorem VotesKept.after {id : String} (hdistinct : Function.Injective entities)
    (hentity : ∀ i, entities i ≠ "") (hs : VotesKept id entities s) (hen : s.Enabled i event)
    (hmove : Move id (.approver (entities i)) (s.phases i) event q) :
    VotesKept id entities (s.after i event q) := by
  obtain ⟨hsound, hkept⟩ := hs
  refine ⟨hsound.after hen hmove nofun, ?_⟩
  rcases hkept with ⟨j, hj⟩ | hkept
  · exact .inl ⟨j, over_after hj hmove⟩
  change AllVotes entities s at hkept
  have hover : q = .over → ∃ j, (s.after i event q).phases j = .over :=
    fun hq => ⟨i, by rw [Snapshot.after_phases_self, hq]⟩
  have hsame : (s.after i event q).cell = s.cell → (HasCast q → HasCast (s.phases i)) →
      AllVotes entities (s.after i event q) :=
    fun hcell => hkept.after_of_same fun p hp => ⟨p, hcell.trans hp, rfl⟩
  have hcopy : ∀ p, s.phases i = .holding p → s.seen i = s.version → s.cell = some p :=
    fun p hp hseen => hsound.cell_of_holding hp hseen
  generalize hphase : s.phases i = q₀ at hmove hsame hcopy
  cases hmove with
  | quiet => exact .inr (hsame rfl fun h => h)
  | absent | remove | rollback => exact .inl (hover rfl)
  | take =>
    right
    apply hsame rfl
    rintro (h | ⟨x, hx⟩)
    · cases h
    · cases hx
  | vote hvote | mark hvote =>
    exact .inr (hkept.after_vote hdistinct hentity (hcopy _ rfl hen) hvote)
  | rereadDone | reread | abort | dispatch | dispatchFailed =>
    exact .inr (hsame rfl fun _ => .inr ⟨_, rfl⟩)
  | @execute _ x y hstatus happrovals =>
    right
    have hrunning : (s.phases i).running = some x := by rw [hphase]; rfl
    obtain ⟨-, hcell, -⟩ := hsound.running i x hrunning
    refine hkept.after_of_same ?_ fun _ => .inr ⟨x, hrunning⟩
    intro p hp
    obtain rfl := Option.some.inj (hcell.symm.trans hp)
    exact ⟨y, rfl, happrovals⟩

/-- In every interleaving of approve calls by different entities without writes from stale copies:
if all calls answer that their vote is recorded, the stored entry has exactly one vote of each. -/
theorem no_vote_lost (core : Core) (id : String) (callers : ι → Request) (w : World)
    (hkeyed : ∀ p, storedPending w.store id = some p → p.requestID = id)
    (hdistinct : Function.Injective fun i => (callers i).entityID)
    (hentity : ∀ i, (callers i).entityID ≠ "")
    (schedule : List (ι × Env)) (henv : ∀ move ∈ schedule, move.2.Reliable)
    (hfresh : NoStaleWrites core id (fun i => .approve (callers i)) w schedule)
    (hsuccess : ∀ i, ∃ reply, VoteRecorded reply ∧
      (interleave core id (fun i => .approve (callers i)) w schedule).threads i = .ret reply) :
    ∀ i, ∃ p, storedPending
      (interleave core id (fun i => .approve (callers i)) w schedule).state.store id = some p ∧
      votes (callers i).entityID p = 1 := by
  have hstart : Tracked id (fun i => .approve (callers i))
      (VotesKept id fun i => (callers i).entityID)
      (startCalls core id (fun i => .approve (callers i)) w) := by
    refine tracked_start core _ ⟨sound_start hkeyed, .inr ?_⟩
    rintro i (h | ⟨x, hx⟩)
    · cases h
    · cases hx
  obtain ⟨phases, hphases, -, hkept⟩ := tracked_runSchedule (fun env h => h)
    (fun s h => h.1.keyed) (fun _ _ _ _ => trivial)
    (fun s i event q hs hen (_ : True) hmove => hs.after hdistinct hentity hen hmove)
    henv hfresh hstart
  have haccepted : ∀ i, phases i = .accepted := by
    intro i
    obtain ⟨reply, hreply, hthread⟩ := hsuccess i
    exact final_of_ret hphases hthread hreply
  intro i
  rcases hkept with ⟨j, hj⟩ | hkept
  · have hover : Phase.accepted = .over := (haccepted j).symm.trans hj
    cases hover
  · exact hkept i (.inl (haccepted i))

/-- With three required approvals, two approvers in lockstep are both told that their vote is
recorded, and only the later one is stored. -/
theorem vote_lost_lockstep :
    (∀ move ∈ lockstep 5, move.2.Reliable) ∧
    (∀ i, ∃ reply, VoteRecorded reply ∧
      (interleave sampleCore "r1" (fun i => .approve (sampleCaller i)) (parkedWorld 3)
        (lockstep 5)).threads i = .ret reply) ∧
    (storedPending (interleave sampleCore "r1" (fun i => .approve (sampleCaller i))
      (parkedWorld 3) (lockstep 5)).state.store "r1").map (votes "alice") = some 0 := by
  refine ⟨?_, ?_, by decide⟩
  · intro move hmove
    rw [env_eq_of_mem_lockstep hmove]
    exact sampleEnv_reliable
  intro i
  cases i with
  | true | false => exact ⟨_, ⟨_, rfl, rfl⟩, rfl⟩

theorem no_vote_lost_inTurn :
    (∃ p, storedPending (interleave sampleCore "r1" (fun i => .approve (sampleCaller i))
      (parkedWorld 3) (inTurn 5)).state.store "r1" = some p ∧ votes "alice" p = 1) ∧
    ∃ p, storedPending (interleave sampleCore "r1" (fun i => .approve (sampleCaller i))
      (parkedWorld 3) (inTurn 5)).state.store "r1" = some p ∧ votes "bob" p = 1 := by
  have hkept := no_vote_lost sampleCore "r1" sampleCaller (parkedWorld 3) (keyed_parkedWorld 3)
    ?_ (by decide) (inTurn 5) ?_ (by decide) ?_
  · exact ⟨hkept true, hkept false⟩
  · intro i j
    cases i <;> cases j <;> decide
  · intro move hmove
    rw [env_eq_of_mem_inTurn hmove]
    exact sampleEnv_reliable
  intro i
  cases i with
  | true | false => exact ⟨_, ⟨_, rfl, rfl⟩, rfl⟩

end VaultProofs.VoteRaces
