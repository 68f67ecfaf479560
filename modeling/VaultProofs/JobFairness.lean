import VaultProofs.JobQueues
import VaultProofs.RoundRobin

/-!
The job manager takes turns. While no queue has too many workers, the queues are served in the order
of their turns; a queue that is pruned and created again may have a turn too many.
-/

namespace VaultProofs.JobFairness

open GoStrings GoSlices RoundRobin FairshareJobs JobQueues

variable {α : Type}

def cursor (j : JobManager α) : Nat :=
  (j.lastQueueAccessed + 1).toNat

def order (j : JobManager α) : List GoString :=
  turns j.queuesIndex (cursor j)

def Unsaturated (maxWorkersPerQueue : Nat → Int) (j : JobManager α) : Prop :=
  ∀ id ∈ j.queuesIndex, queueWorkersSaturated maxWorkersPerQueue j id = false

/-- The turn of the queue is still to come in the present pass over the index. -/
def AfterCursor (j : JobManager α) (queueID : GoString) : Prop :=
  queueID ∈ j.queuesIndex.drop (cursor j)

instance (maxWorkersPerQueue : Nat → Int) (j : JobManager α) :
    Decidable (Unsaturated maxWorkersPerQueue j) :=
  inferInstanceAs (Decidable (∀ id ∈ j.queuesIndex, _ = false))

instance (j : JobManager α) (queueID : GoString) : Decidable (AfterCursor j queueID) :=
  inferInstanceAs (Decidable (queueID ∈ j.queuesIndex.drop (cursor j)))

variable {j : JobManager α}

theorem cursor_le (h : Sound j) : cursor j ≤ j.queuesIndex.length := by
  have hbounds := h.cursor_bounds
  rw [cursor]
  omega

variable {id : GoString}

theorem order_nodup (h : Sound j) : (order j).Nodup :=
  (turns_perm _ _).nodup_iff.mpr h.nodup

theorem order_served {i : Nat} (jobs : List α) (h : Sound j)
    (hturn : i = cursor j % j.queuesIndex.length) (hi : j.queuesIndex[i]? = some id) :
    ∃ rest, order j = id :: rest ∧
      (order (served j i id jobs) = rest ++ [id] ∨ order (served j i id jobs) = rest) := by
  obtain ⟨rest, hnow, hkept, hpruned⟩ := turns_next (cursor_le h) hturn hi
  refine ⟨rest, hnow, ?_⟩
  rw [order, served]
  split
  · refine .inr ?_
    rw [← hpruned, cursor]
    congr 1
    simp only
    split
    · omega
    · omega
  · refine .inl ?_
    congr 1

variable {limit : Nat → Int}

theorem findQueue_first {i : Nat} (rounds : Nat) (hi : j.queuesIndex[i]? = some id)
    (hfree : queueWorkersSaturated limit j id = false) :
    findQueue limit j (rounds + 1) i = some (some ((i : Int), id)) := by
  have hslot : slot j.queuesIndex (i : Int) = some id := by
    rw [slot, if_pos (Int.natCast_nonneg i), Int.toNat_natCast, hi]
  rw [findQueue, hslot]
  simp only [Option.bind_eq_bind, Option.bind_some, hfree, Bool.false_eq_true, if_false]

theorem getNextJob_turn (h : Sound j) (hfree : Unsaturated limit j) (hqueues : j.queuesIndex ≠ []) :
    ∃ i id job jobs, i = cursor j % j.queuesIndex.length ∧ j.queuesIndex[i]? = some id ∧
      getNextJob limit j = some (some (job, id), served j i id jobs) := by
  have hlength := List.length_pos_iff.mpr hqueues
  have hkeys : j.queues.keys.length ≠ 0 := by
    obtain ⟨id, hid⟩ := List.exists_mem_of_length_pos hlength
    exact Nat.ne_of_gt (List.length_pos_of_mem (AList.mem_keys.mpr ((h.listed id).mp hid)))
  have hlt := Nat.mod_lt (cursor j) hlength
  have hi := List.getElem?_eq_getElem hlt
  obtain ⟨rounds, hrounds⟩ := Nat.exists_eq_succ_of_ne_zero (Nat.ne_of_gt hlength)
  have hfind := findQueue_first rounds hi (hfree _ (List.getElem_mem hlt))
  rw [← Nat.succ_eq_add_one, ← hrounds] at hfind
  obtain ⟨job, jobs, -, htaken⟩ :=
    getNextJob_found h hkeys hi (getNextQueue_found h hlength hfind)
  exact ⟨_, _, job, jobs, rfl, hi, htaken⟩

theorem order_getNextJob {j next : JobManager α} {job : α} (h : Sound j)
    (hfree : Unsaturated limit j) (hqueues : j.queuesIndex ≠ [])
    (htaken : getNextJob limit j = some (some (job, id), next)) :
    ∃ rest, order j = id :: rest ∧ (order next = rest ++ [id] ∨ order next = rest) := by
  obtain ⟨i, id', job', jobs, hturn, hi, hserved⟩ := getNextJob_turn h hfree hqueues
  cases hserved.symm.trans htaken
  exact order_served jobs h hturn hi

/-- What a call may meet between two jobs taken from `r`: no saturated queue, jobs in `q`, and, if
it creates `r` again, the turn of `q` still to come. -/
structure Fair (maxWorkersPerQueue : Nat → Int) (q r : GoString) (j : JobManager α)
    (call : JobCall α) : Prop where
  unsaturated : Unsaturated maxWorkersPerQueue j
  present : q ∈ j.queues
  recreated : ∀ job, call = .addJob job r → r ∉ j.queues → AfterCursor j q

variable {q r : GoString}

theorem Fair.index_ne_nil {call : JobCall α} (hfair : Fair limit q r j call) (h : Sound j) :
    j.queuesIndex ≠ [] :=
  List.ne_nil_of_mem ((h.listed q).mpr hfair.present)

def FairRun (maxWorkersPerQueue : Nat → Int) (q r : GoString) :
    JobManager α → List (JobCall α) → Prop
  | _, [] => True
  | j, call :: calls =>
    Fair maxWorkersPerQueue q r j call ∧
      ∀ taken next, runCall maxWorkersPerQueue j call = some (taken, next) →
        FairRun maxWorkersPerQueue q r next calls

theorem ahead_addJob (h : Sound j) (hahead : Ahead q r (order j)) (job : α) (queueID : GoString)
    (hrecreated : queueID = r → r ∉ j.queues → AfterCursor j q) :
    Ahead q r (order (addJob j job queueID)) := by
  by_cases hid : queueID ∈ j.queues
  · rw [addJob_present job hid]
    exact hahead
  obtain ⟨counts, hadd⟩ := addJob_absent job hid
  rw [hadd]
  by_cases hr : queueID = r
  · subst hr
    exact ahead_of_added (cursor_le h) (hrecreated rfl hid)
  · exact hahead.other_added (cursor_le h) hr

/-- Between two jobs of `r`, a fair call that takes no job of `q` leaves `q` ahead. -/
theorem ahead_runCall {j next : JobManager α} {call : JobCall α} {taken : Option (α × GoString)}
    (h : Sound j) (hahead : Ahead q r (order j)) (hfair : Fair limit q r j call)
    (hcall : runCall limit j call = some (taken, next))
    (hothers : ∀ job ∈ taken.toList, job.2 ≠ q ∧ job.2 ≠ r) : Ahead q r (order next) := by
  cases call with
  | addJob job queueID =>
    cases hcall
    exact ahead_addJob h hahead job queueID fun hid => hfair.recreated job (by rw [hid])
  | getNextJob =>
    rcases getNextJob_cases limit h with hnone | ⟨i, id, job, jobs, -, -, htaken⟩
    · cases hnone.symm.trans hcall
      exact hahead
    cases htaken.symm.trans hcall
    obtain ⟨rest, hnow, hnext⟩ :=
      order_getNextJob h hfair.unsaturated (hfair.index_ne_nil h) htaken
    obtain ⟨hq, hr⟩ := hothers (job, id) (by simp)
    rw [hnow] at hahead
    exact hahead.other_served hq hr hnext
  | incrementWorkerCount queueID =>
    cases hcall
    exact hahead
  | decrementWorkerCount queueID =>
    obtain ⟨counts, hcounts⟩ := decrementWorkerCount_queues j queueID
    cases hcall
    rw [hcounts]
    exact hahead

theorem ahead_runCalls {j last : JobManager α} {calls : List (JobCall α)}
    {taken : List (α × GoString)} (h : Sound j) (hahead : Ahead q r (order j))
    (hfair : FairRun limit q r j calls) (hcalls : runCalls limit j calls = some (taken, last))
    (hothers : ∀ job ∈ taken, job.2 ≠ q ∧ job.2 ≠ r) : Sound last ∧ Ahead q r (order last) := by
  induction calls generalizing j taken with
  | nil =>
    cases hcalls
    exact ⟨h, hahead⟩
  | cons call calls ih =>
    obtain ⟨now, next, hcall, hnext, -⟩ := runCall_sound limit h call
    obtain ⟨later, last', hlater, -, -⟩ := runCalls_sound limit hnext calls
    rw [runCalls, hcall] at hcalls
    simp only [Option.bind_eq_bind, Option.bind_some, hlater] at hcalls
    cases hcalls
    have hnow := ahead_runCall h hahead hfair.1 hcall
      fun job hjob => hothers job (List.mem_append_left _ hjob)
    exact ih hnext hnow (hfair.2 now next hcall) hlater
      fun job hjob => hothers job (List.mem_append_right _ hjob)

/-- Between two consecutive jobs of `r`, a job is taken from a queue `q` that has jobs all the time,
if `r` is created again only while the turn of `q` is still to come. -/
theorem round_robin_fair (maxWorkersPerQueue : Nat → Int) (earlier calls : List (JobCall α))
    {q r : GoString} (hne : q ≠ r) {before between : List (α × GoString)} {x y : α}
    {j₀ j₁ j₂ j₃ : JobManager α}
    (hearlier : runCalls maxWorkersPerQueue {} earlier = some (before, j₀))
    (hfirst : getNextJob maxWorkersPerQueue j₀ = some (some (x, r), j₁))
    (hcalls : runCalls maxWorkersPerQueue j₁ calls = some (between, j₂))
    (hsecond : getNextJob maxWorkersPerQueue j₂ = some (some (y, r), j₃))
    (hconsecutive : ∀ job ∈ between, job.2 ≠ r)
    (hfair₀ : Fair maxWorkersPerQueue q r j₀ .getNextJob)
    (hfair : FairRun maxWorkersPerQueue q r j₁ calls)
    (hfair₂ : Fair maxWorkersPerQueue q r j₂ .getNextJob) :
    ∃ job ∈ between, job.2 = q := by
  obtain ⟨_, _, hrun, hsound, -⟩ := runCalls_sound maxWorkersPerQueue sound_new earlier
  cases hearlier.symm.trans hrun
  obtain ⟨_, _, hcall, hsound₁, -⟩ := runCall_sound maxWorkersPerQueue hsound .getNextJob
  cases hfirst.symm.trans hcall
  by_contra hnone
  -- after the first job of `r` the queue `q` is ahead of it
  have hahead : Ahead q r (order j₁) := by
    obtain ⟨rest, hnow, hnext⟩ :=
      order_getNextJob hsound hfair₀.unsaturated (hfair₀.index_ne_nil hsound) hfirst
    have hnodup := order_nodup hsound
    have hq : q ∈ order _ := (turns_perm _ _).mem_iff.mpr ((hsound.listed q).mpr hfair₀.present)
    rw [hnow] at hnodup hq
    exact ahead_of_served hnodup ((List.mem_cons.mp hq).resolve_left hne) hnext
  -- and so it stays, until `r` has its turn again
  obtain ⟨hsound₂, hahead₂⟩ := ahead_runCalls hsound₁ hahead hfair hcalls
    fun job hjob => ⟨fun hq => hnone ⟨job, hjob, hq⟩, hconsecutive job hjob⟩
  obtain ⟨rest, hnow, -⟩ :=
    order_getNextJob hsound₂ hfair₂.unsaturated (hfair₂.index_ne_nil hsound₂) hsecond
  have hnodup := order_nodup hsound₂
  rw [hnow] at hnodup hahead₂
  exact not_ahead_head hnodup (Ne.symm hne) hahead₂

def samplePass : List (JobCall Nat) :=
  [.addJob 1 [0], .addJob 2 [0], .addJob 3 [1], .addJob 4 [2], .addJob 5 [2], .getNextJob]

theorem samplePass_fair :
    ∃ before between j₀ j₁ j₂ j₃, runCalls (fun _ => 10) {} samplePass = some (before, j₀) ∧
      getNextJob (fun _ => 10) j₀ = some (some (3, [1]), j₁) ∧
      runCalls (fun _ => 10) j₁ [.addJob 6 [1], .getNextJob] = some (between, j₂) ∧
      getNextJob (fun _ => 10) j₂ = some (some (6, [1]), j₃) ∧
      ∃ job ∈ between, job.2 = [2] := by
  refine ⟨_, _, _, _, _, _, rfl, rfl, rfl, rfl, ?_⟩
  refine round_robin_fair (fun _ => 10) samplePass [.addJob 6 [1], .getNextJob] (by decide)
    rfl rfl rfl rfl (by decide) ⟨by decide, by decide, fun job h => nomatch h⟩ ?_
    ⟨by decide, by decide, fun job h => nomatch h⟩
  refine ⟨⟨by decide, by decide, fun job _ _ => by decide⟩, fun taken next hcall => ?_⟩
  cases hcall
  exact ⟨⟨by decide, by decide, fun job h => nomatch h⟩, fun _ _ _ => trivial⟩

/-- Two jobs in a row are taken from `[1]` while `[2]` has a job all the time. -/
theorem recreated_queue_overtakes :
    ∃ j₀ j₁ j₂ j₃ : JobManager Nat,
      runCalls (fun _ => 10) {} [.addJob 1 [1], .addJob 2 [2]] = some ([], j₀) ∧
      getNextJob (fun _ => 10) j₀ = some (some (1, [1]), j₁) ∧
      runCalls (fun _ => 10) j₁ [.addJob 3 [1]] = some ([], j₂) ∧
      getNextJob (fun _ => 10) j₂ = some (some (3, [1]), j₃) ∧
      (∀ j ∈ [j₀, j₁, j₂], Unsaturated (fun _ => 10) j) ∧
      ∀ j ∈ [j₀, j₁, j₂, j₃], waiting j [2] = [2] := by
  refine ⟨_, _, _, _, rfl, rfl, rfl, rfl, by decide, by decide⟩

end VaultProofs.JobFairness
