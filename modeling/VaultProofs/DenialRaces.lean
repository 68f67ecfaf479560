import VaultProofs.EntryRaces

/-!
Approve and deny calls that race for one entry.
-/

namespace VaultProofs.DenialRaces

open ConcurrentPrograms SharedCells ApprovalEntries VaultEffects ApprovalInterceptor EntryCell
open ApprovalProtocol HandlerProtocols EntryRaces

variable {ι : Type} [DecidableEq ι]

def Denied (s : EntrySnapshot ι) : Prop :=
  ∃ p, s.cell = some p ∧ p.status = .denied

theorem denied_after {id : String} {role : Role} {s : EntrySnapshot ι} (hs : Sound id s)
    (hdenied : Denied s) {i : ι} {event : EntryEvent} {q : Phase} (hen : s.Enabled i event)
    (hmove : Move id role (s.phases i) event q) (hrole : role ≠ .fetcher) :
    Denied (s.after i event q) ∧ (s.after i event q).signals = s.signals := by
  obtain ⟨p, hcell, hstatus⟩ := hdenied
  have hidle : ∀ j x, (s.phases j).running ≠ some x := by
    intro j x hj
    obtain ⟨-, hcell', happroved⟩ := hs.running j x hj
    rw [hcell, Option.some.injEq] at hcell'
    rw [hcell', happroved] at hstatus
    cases hstatus
  cases event with
  | quiet | read value => exact ⟨⟨p, hcell, hstatus⟩, rfl⟩
  | write value =>
    rcases hmove.writer hrole with ⟨p', hp', hpending⟩ | ⟨x, hx⟩
    · have hcell' := hs.cell_of_holding hp' hen
      rw [hcell, Option.some.injEq] at hcell'
      rw [hcell', hpending] at hstatus
      cases hstatus
    · exact (hidle i x hx).elim
  | signal good =>
    generalize hphase : s.phases i = q₀ at hmove
    cases hmove with
    | dispatch => exact (hidle i _ (by rw [hphase]; rfl)).elim
    | dispatchFailed => exact (hidle i _ (by rw [hphase]; rfl)).elim

def DenialStands (id : String) (s : EntrySnapshot ι) : Prop :=
  Sound id s ∧ ∀ j, s.phases j = .denied → Denied s

theorem DenialStands.after {id : String} {role : Role} {s : EntrySnapshot ι}
    (hs : DenialStands id s) {i : ι} {event : EntryEvent} {q : Phase} (hen : s.Enabled i event)
    (hmove : Move id role (s.phases i) event q) (hrole : role ≠ .fetcher) :
    DenialStands id (s.after i event q) := by
  obtain ⟨hsound, hstands⟩ := hs
  refine ⟨hsound.after hen hmove hrole, ?_⟩
  intro j hj
  by_cases hij : j = i
  · subst hij
    rw [Snapshot.after_phases_self] at hj
    subst hj
    generalize hphase : s.phases j = q₀ at hmove
    cases hmove with
    | quiet => exact hstands j hphase
    | deny hp hstatus => exact ⟨_, rfl, hstatus⟩
  · rw [Snapshot.after_phases_of_ne s event q hij] at hj
    exact (denied_after hsound (hstands j hj) hen hmove hrole).1

theorem role_ne_of_ne_fetch {call : EntryCall} (hcall : ∀ req, call ≠ .fetch req) :
    call.role ≠ .fetcher := by
  cases call with
  | approve req | deny req => exact nofun
  | fetch req => exact absurd rfl (hcall req)

/-- In every interleaving of approve and deny calls on one entry without writes from stale copies:
once a deny call has answered "denied", nothing is dispatched any more and the entry is neither
pending nor approved again. -/
theorem denial_is_final (core : Core) (id : String) (calls : ι → EntryCall) (w : World)
    (hcalls : ∀ i req, calls i ≠ .fetch req)
    (hkeyed : ∀ p, storedPending w.store id = some p → p.requestID = id)
    (earlier later : List (ι × Env)) (henv : ∀ move ∈ earlier ++ later, move.2.Reliable)
    (hfresh : NoStaleWrites core id calls w (earlier ++ later))
    (j : ι) (req : Request) (reply : Reply) (hcall : calls j = .deny req)
    (hreply : (interleave core id calls w earlier).threads j = .ret reply)
    (hdenied : HasStatus reply "denied") :
    (interleave core id calls w (earlier ++ later)).state.routed.length =
      (interleave core id calls w earlier).state.routed.length ∧
    ∀ p, storedPending (interleave core id calls w (earlier ++ later)).state.store id = some p →
      p.status ≠ .pending ∧ p.status ≠ .approved := by
  have hrole : ∀ i, (calls i).role ≠ .fetcher := fun i => role_ne_of_ne_fetch (hcalls i)
  have hstart : Tracked id calls (DenialStands id) (startCalls core id calls w) :=
    tracked_start core calls ⟨sound_start hkeyed, fun _ h => by cases h⟩
  obtain ⟨hfresh₁, hfresh₂⟩ := (Pool.noStaleWrite_append _ _ _ _).mp hfresh
  have henv₁ : ∀ move ∈ earlier, move.2.Reliable :=
    fun move hmem => henv move (List.mem_append_left _ hmem)
  have henv₂ : ∀ move ∈ later, move.2.Reliable :=
    fun move hmem => henv move (List.mem_append_right _ hmem)
  have hmiddle : Tracked id calls (DenialStands id) (interleave core id calls w earlier) :=
    tracked_runSchedule (fun env h => h) (fun s h => h.1.keyed) (fun _ _ _ _ => trivial)
      (fun s i event q hs hen (_ : True) hmove => hs.after hen hmove (hrole i))
      henv₁ hfresh₁ hstart
  have hsplit : interleave core id calls w (earlier ++ later) =
      Pool.runSchedule (entryMachine id) later (interleave core id calls w earlier) :=
    Pool.runSchedule_append _ _ _ _
  rw [hsplit]
  change Pool.NoStaleWrite _ later (interleave core id calls w earlier) at hfresh₂
  generalize interleave core id calls w earlier = middle at *
  obtain ⟨phases, hphases, hsound, hstands⟩ := hmiddle
  have hj : phases j = .denied := by
    have hfinal := final_of_ret hphases hreply
    rw [hcall] at hfinal
    exact hfinal hdenied
  have htracked : Tracked id calls
      (fun s => Sound id s ∧ Denied s ∧ s.signals = middle.state.routed.length) middle :=
    ⟨phases, hphases, hsound, hstands j hj, rfl⟩
  obtain ⟨phases', -, -, ⟨p, hcell, hstatus⟩, hcount⟩ := tracked_runSchedule (fun env h => h)
    (fun s h => h.1.keyed) (fun _ _ _ _ => trivial)
    (fun s i event q hs hen (_ : True) hmove => by
      obtain ⟨hs, hdenied, hsignals⟩ := hs
      obtain ⟨hdenied', hsame⟩ := denied_after hs hdenied hen hmove (hrole i)
      exact ⟨hs.after hen hmove (hrole i), hdenied', hsame.trans hsignals⟩)
    henv₂ hfresh₂ htracked
  refine ⟨hcount, ?_⟩
  intro p' hp'
  obtain rfl : p = p' := Option.some.inj (hcell.symm.trans hp')
  rw [hstatus]
  decide

def approveAndDeny : Bool → EntryCall
  | true => .approve (sampleCaller true)
  | false => .deny (sampleCaller false)

/-- The approve call is about to mark the entry when the deny call runs to its end. -/
def overtakenApprove : List (Bool × Env) :=
  List.replicate 4 (true, sampleEnv) ++ List.replicate 6 (false, sampleEnv)

def overtakenApproveDone : List (Bool × Env) :=
  overtakenApprove ++ List.replicate 6 (true, sampleEnv)

/-- The denial is answered, and then the approve call dispatches the request and
leaves the entry approved. -/
theorem approved_after_denial :
    (∀ move ∈ overtakenApproveDone, move.2.Reliable) ∧
    (∃ reply, (interleave sampleCore "r1" approveAndDeny (parkedWorld 1)
      overtakenApprove).threads false = .ret reply ∧ HasStatus reply "denied") ∧
    (interleave sampleCore "r1" approveAndDeny (parkedWorld 1)
      overtakenApprove).state.routed.length = 0 ∧
    (interleave sampleCore "r1" approveAndDeny (parkedWorld 1)
      overtakenApproveDone).state.routed.length = 1 ∧
    (storedPending (interleave sampleCore "r1" approveAndDeny (parkedWorld 1)
      overtakenApproveDone).state.store "r1").map PendingRequest.status = some .approved := by
  refine ⟨?_, ⟨_, rfl, _, rfl, rfl⟩, by decide, by decide, by decide⟩
  intro move hmove
  simp only [overtakenApproveDone, overtakenApprove, List.mem_append, List.mem_replicate] at hmove
  rcases hmove with (⟨-, rfl⟩ | ⟨-, rfl⟩) | ⟨-, rfl⟩ <;> exact sampleEnv_reliable

theorem denial_is_final_inTurn :
    (interleave sampleCore "r1" approveAndDeny (parkedWorld 1)
      (List.replicate 6 (false, sampleEnv) ++
        List.replicate 3 (true, sampleEnv))).state.routed.length =
    (interleave sampleCore "r1" approveAndDeny (parkedWorld 1)
      (List.replicate 6 (false, sampleEnv))).state.routed.length := by
  refine (denial_is_final sampleCore "r1" approveAndDeny (parkedWorld 1) ?_
    (keyed_parkedWorld 1) _ _ ?_ (by decide) false (sampleCaller false) _ rfl rfl
    ⟨_, rfl, rfl⟩).1
  · intro i req
    cases i <;> exact nofun
  · intro move hmove
    simp only [List.mem_append, List.mem_replicate] at hmove
    rcases hmove with ⟨-, rfl⟩ | ⟨-, rfl⟩ <;> exact sampleEnv_reliable

end VaultProofs.DenialRaces
