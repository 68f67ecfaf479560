import VaultProofs.CountedMaps
import VaultProofs.FairshareJobs

/-!
What holds of the job manager in every state.
-/

namespace VaultProofs.JobQueues

open GoStrings GoSlices CountedMaps FairshareJobs

variable {α : Type}

structure Sound (j : JobManager α) : Prop where
  nodup : j.queuesIndex.Nodup
  listed : ∀ id, id ∈ j.queuesIndex ↔ id ∈ j.queues
  nonempty : ∀ id jobs, j.queues.lookup id = some jobs → jobs ≠ []
  totalJobs : j.totalJobs = total List.length j.queues
  cursor : j.lastQueueAccessed = -1 ∨
    (0 ≤ j.lastQueueAccessed ∧ j.lastQueueAccessed < j.queuesIndex.length)

def waiting (j : JobManager α) (queueID : GoString) : List α :=
  (j.queues.lookup queueID).getD []

def takenFrom (queueID : GoString) (taken : List (α × GoString)) : List α :=
  (taken.filter fun job => job.2 = queueID).map Prod.fst

def addedTo (queueID : GoString) (calls : List (JobCall α)) : List α :=
  calls.filterMap fun call =>
    match call with
    | .addJob job id => if id = queueID then some job else none
    | _ => none

theorem sound_new : Sound ({} : JobManager α) := by
  refine ⟨List.nodup_nil, fun id => ?_, fun id jobs h => ?_, rfl, .inl rfl⟩
  · exact ⟨fun h => (nomatch h), fun h => absurd h (AList.notMem_empty id)⟩
  · cases h

variable {j : JobManager α}

theorem Sound.cursor_bounds (h : Sound j) :
    -1 ≤ j.lastQueueAccessed ∧ j.lastQueueAccessed < j.queuesIndex.length := by
  rcases h.cursor with hnone | hin
  · omega
  · omega

variable {id : GoString}

theorem lookup_of_mem (h : Sound j) (hid : id ∈ j.queues) :
    ∃ job jobs, j.queues.lookup id = some (job :: jobs) := by
  obtain ⟨jobs, hjobs⟩ := Option.isSome_iff_exists.mp (AList.lookup_isSome.mpr hid)
  obtain ⟨job, rest, rfl⟩ := List.exists_cons_of_ne_nil (h.nonempty id jobs hjobs)
  exact ⟨job, rest, hjobs⟩

theorem addJob_present (job : α) {queueID : GoString} (h : queueID ∈ j.queues) :
    addJob j job queueID =
      { j with
        queues := j.queues.insert queueID (waiting j queueID ++ [job])
        totalJobs := j.totalJobs + 1 } := by
  rw [addJob, if_pos h]
  rfl

theorem addJob_absent (job : α) {queueID : GoString} (h : queueID ∉ j.queues) :
    ∃ counts, addJob j job queueID =
      { j with
        queues := (j.queues.insert queueID []).insert queueID [job]
        workerCount := counts
        totalJobs := j.totalJobs + 1
        queuesIndex := j.queuesIndex ++ [queueID] } := by
  rw [addJob, if_neg h, addQueue]
  simp only [if_neg h]
  split
  · refine ⟨j.workerCount, ?_⟩
    simp only [AList.lookup_insert, Option.getD_some, List.nil_append]
  · refine ⟨j.workerCount.insert queueID 0, ?_⟩
    simp only [AList.lookup_insert, Option.getD_some, List.nil_append]

theorem total_renewed {queues : AList (fun _ : GoString => List α)} (jobs : List α) :
    total List.length ((queues.insert id jobs).erase id) = total List.length (queues.erase id) := by
  have herase := total_erase List.length (AList.lookup_insert (b := jobs) (a := id) queues)
  rw [total_insert] at herase
  omega

theorem sound_addJob (h : Sound j) (job : α) (queueID : GoString) :
    Sound (addJob j job queueID) := by
  by_cases hid : queueID ∈ j.queues
  · obtain ⟨first, rest, hjobs⟩ := lookup_of_mem h hid
    have hwaiting : waiting j queueID = first :: rest := by rw [waiting, hjobs, Option.getD_some]
    have htotal := total_erase List.length hjobs
    rw [addJob_present job hid, hwaiting]
    refine ⟨h.nodup, fun id => ?_, fun id jobs hlookup => ?_, ?_, h.cursor⟩
    · rw [AList.mem_insert, h.listed]
      exact (or_iff_right_of_imp fun heq => heq ▸ hid).symm
    · rcases lookup_insert_cases hlookup with ⟨-, rfl⟩ | ⟨-, hold⟩
      · simp
      · exact h.nonempty id jobs hold
    have hold := h.totalJobs
    rw [total_insert]
    simp only [List.length_append, List.length_cons, List.length_nil] at htotal ⊢
    omega
  obtain ⟨counts, hadd⟩ := addJob_absent job hid
  have hnew : queueID ∉ j.queuesIndex := fun hmem => hid ((h.listed queueID).mp hmem)
  rw [hadd]
  refine ⟨?_, fun id => ?_, fun id jobs hlookup => ?_, ?_, ?_⟩
  · exact List.Nodup.append h.nodup (List.nodup_singleton _) (by simpa using hnew)
  · rw [List.mem_append, List.mem_singleton, AList.mem_insert, AList.mem_insert, h.listed]
    tauto
  · rcases lookup_insert_cases hlookup with ⟨-, rfl⟩ | ⟨hne, hold⟩
    · simp
    · rw [AList.lookup_insert_ne hne] at hold
      exact h.nonempty id jobs hold
  · have hold := h.totalJobs
    rw [total_insert, total_renewed, total_erase_absent List.length hid]
    simp only [List.length_singleton]
    omega
  · have hcursor := h.cursor
    simp only [List.length_append, List.length_singleton]
    omega

theorem waiting_addJob (job : α) (queueID id : GoString) : waiting (addJob j job queueID) id =
      waiting j id ++ if queueID = id then [job] else [] := by
  by_cases hid : queueID ∈ j.queues
  · rw [addJob_present job hid, waiting]
    by_cases heq : queueID = id
    · subst heq
      rw [AList.lookup_insert, Option.getD_some, if_pos rfl]
    · rw [AList.lookup_insert_ne (fun h => heq h.symm), if_neg heq, List.append_nil]
      rfl
  obtain ⟨counts, hadd⟩ := addJob_absent job hid
  rw [hadd, waiting]
  by_cases heq : queueID = id
  · subst heq
    rw [AList.lookup_insert, Option.getD_some, if_pos rfl, waiting,
      AList.lookup_eq_none.mpr hid]
    rfl
  · have hne : id ≠ queueID := fun h => heq h.symm
    rw [AList.lookup_insert_ne hne, AList.lookup_insert_ne hne, if_neg heq, List.append_nil]
    rfl

theorem nextQueueIndex_eq {currentIdx : Int} (hcurrent : -1 ≤ currentIdx)
    (hlength : 0 < j.queuesIndex.length) :
    nextQueueIndex j currentIdx =
      some (((currentIdx + 1).toNat % j.queuesIndex.length : Nat) : Int) := by
  rw [nextQueueIndex, if_neg (by omega), Int.tmod_eq_emod_of_nonneg (by omega)]
  congr 1
  rw [Int.natCast_emod, Int.toNat_of_nonneg (by omega)]

variable {i : Nat}

theorem findQueue_total (limit : Nat → Int) (rounds : Nat) (hi : i < j.queuesIndex.length) :
    ∃ found, findQueue limit j rounds i = some found ∧
      ∀ accessed id, found = some (accessed, id) →
        ∃ k : Nat, accessed = k ∧ j.queuesIndex[k]? = some id := by
  induction rounds generalizing i with
  | zero => exact ⟨none, rfl, fun _ _ h => nomatch h⟩
  | succ rounds ih =>
    have hslot : slot j.queuesIndex (i : Int) = some j.queuesIndex[i] := by
      rw [slot, if_pos (by omega), Int.toNat_natCast, List.getElem?_eq_getElem hi]
    rw [findQueue, hslot]
    simp only [Option.bind_eq_bind, Option.bind_some]
    split
    · rw [nextQueueIndex_eq (by omega) (by omega)]
      exact ih (Nat.mod_lt _ (by omega))
    · refine ⟨_, rfl, fun accessed id hfound => ?_⟩
      cases hfound
      exact ⟨i, rfl, List.getElem?_eq_getElem hi⟩

def served (j : JobManager α) (i : Nat) (queueID : GoString) (jobs : List α) : JobManager α :=
  if jobs = [] then
    { j with
      queues := (j.queues.insert queueID jobs).erase queueID
      totalJobs := j.totalJobs - 1
      queuesIndex := j.queuesIndex.eraseIdx i
      lastQueueAccessed := if 0 < i then i - 1 else (j.queuesIndex.eraseIdx i).length - 1 }
  else
    { j with
      queues := j.queues.insert queueID jobs
      totalJobs := j.totalJobs - 1
      lastQueueAccessed := i }

theorem removeLastQueueAccessed_eq (hlast : j.lastQueueAccessed = i)
    (hi : j.queuesIndex[i]? = some id) :
    removeLastQueueAccessed j = some
      { j with
        queues := j.queues.erase id
        queuesIndex := j.queuesIndex.eraseIdx i
        lastQueueAccessed := if 0 < i then i - 1 else (j.queuesIndex.eraseIdx i).length - 1 } := by
  have hlt := (List.getElem?_eq_some_iff.mp hi).1
  have hslot : slot j.queuesIndex (i : Int) = some id := by
    rw [slot, if_pos (by omega), Int.toNat_natCast, hi]
  rw [removeLastQueueAccessed, hlast, if_neg (by omega), hslot]
  simp only [Option.bind_eq_bind, Option.bind_some, Int.toNat_natCast, gt_iff_lt, Int.natCast_pos]

theorem index_pos (h : Sound j) (hqueues : j.queues.keys.length ≠ 0) :
    0 < j.queuesIndex.length := by
  obtain ⟨id, hid⟩ := List.exists_mem_of_length_pos (Nat.pos_of_ne_zero hqueues)
  exact List.length_pos_of_mem ((h.listed id).mpr (AList.mem_keys.mp hid))

theorem getNextQueue_found {limit : Nat → Int} (h : Sound j) (hlength : 0 < j.queuesIndex.length)
    {i : Int}
    (hfound : findQueue limit j j.queuesIndex.length
      ((j.lastQueueAccessed + 1).toNat % j.queuesIndex.length : Nat) = some (some (i, id))) :
    getNextQueue limit j = some (some id, { j with lastQueueAccessed := i }) := by
  rw [getNextQueue, nextQueueIndex_eq h.cursor_bounds.1 hlength]
  simp only [Option.bind_eq_bind, Option.bind_some, hfound]

theorem getNextJob_found {limit : Nat → Int} (h : Sound j) (hqueues : j.queues.keys.length ≠ 0)
    (hi : j.queuesIndex[i]? = some id)
    (hfound : getNextQueue limit j = some (some id, { j with lastQueueAccessed := i })) :
    ∃ job jobs, j.queues.lookup id = some (job :: jobs) ∧
      getNextJob limit j = some (some (job, id), served j i id jobs) := by
  obtain ⟨job, jobs, hjobs⟩ := lookup_of_mem h ((h.listed id).mp (List.mem_of_getElem? hi))
  refine ⟨job, jobs, hjobs, ?_⟩
  rw [getNextJob, if_neg hqueues, hfound]
  simp only [Option.bind_eq_bind, Option.bind_some, hjobs, List.length_eq_zero_iff, served]
  split
  · have hremove := removeLastQueueAccessed_eq (j :=
      { j with
        queues := j.queues.insert id jobs
        totalJobs := j.totalJobs - 1
        lastQueueAccessed := i }) rfl hi
    rw [hremove]
    rfl
  · rfl

theorem getNextJob_cases (limit : Nat → Int) (h : Sound j) : getNextJob limit j = some (none, j) ∨
      ∃ i id job jobs, j.queuesIndex[i]? = some id ∧ j.queues.lookup id = some (job :: jobs) ∧
        getNextJob limit j = some (some (job, id), served j i id jobs) := by
  by_cases hqueues : j.queues.keys.length = 0
  · exact .inl (by rw [getNextJob, if_pos hqueues])
  have hlength := index_pos h hqueues
  obtain ⟨found, hfound, hin⟩ := findQueue_total limit j.queuesIndex.length
    (Nat.mod_lt (j.lastQueueAccessed + 1).toNat hlength)
  cases found with
  | none =>
    refine .inl ?_
    rw [getNextJob, if_neg hqueues, getNextQueue, nextQueueIndex_eq h.cursor_bounds.1 hlength]
    simp only [Option.bind_eq_bind, Option.bind_some, hfound]
  | some found =>
    obtain ⟨accessed, id⟩ := found
    obtain ⟨i, rfl, hi⟩ := hin accessed id rfl
    obtain ⟨job, jobs, hjobs, htaken⟩ :=
      getNextJob_found h hqueues hi (getNextQueue_found h hlength hfound)
    exact .inr ⟨i, id, job, jobs, hi, hjobs, htaken⟩

theorem mem_eraseIdx {index : List GoString} (hnodup : index.Nodup) {id x : GoString}
    (hi : index[i]? = some id) : x ∈ index.eraseIdx i ↔ x ≠ id ∧ x ∈ index := by
  obtain ⟨hlt, hget⟩ := List.getElem?_eq_some_iff.mp hi
  rw [← hnodup.erase_getElem i hlt, hget]
  exact hnodup.mem_erase_iff

theorem sound_served (h : Sound j) {job : α} {jobs : List α} (hi : j.queuesIndex[i]? = some id)
    (hjobs : j.queues.lookup id = some (job :: jobs)) : Sound (served j i id jobs) := by
  have hlt := (List.getElem?_eq_some_iff.mp hi).1
  have hold := h.totalJobs
  have htotal := total_erase List.length hjobs
  rw [served]
  split
  · rename_i hnil
    subst hnil
    refine ⟨h.nodup.sublist (List.eraseIdx_sublist _ _), fun x => ?_, fun x kept hkept => ?_, ?_, ?_⟩
    · rw [mem_eraseIdx h.nodup hi, AList.mem_erase, AList.mem_insert, h.listed]
      tauto
    · by_cases hx : x = id
      · subst hx
        rw [AList.lookup_erase] at hkept
        cases hkept
      · rw [AList.lookup_erase_ne hx, AList.lookup_insert_ne hx] at hkept
        exact h.nonempty x kept hkept
    · show j.totalJobs - 1 = _
      rw [total_renewed]
      simp only [List.length_cons, List.length_nil] at htotal
      omega
    have hlength := List.length_eraseIdx_of_lt hlt
    simp only
    split
    · omega
    · omega
  rename_i hne
  refine ⟨h.nodup, fun x => ?_, fun x kept hkept => ?_, ?_,
    .inr ⟨Int.natCast_nonneg i, Int.ofNat_lt.mpr hlt⟩⟩
  · rw [AList.mem_insert, h.listed]
    exact (or_iff_right_of_imp fun heq => heq ▸ mem_of_lookup hjobs).symm
  · rcases lookup_insert_cases hkept with ⟨-, rfl⟩ | ⟨-, hkept⟩
    · exact hne
    · exact h.nonempty x kept hkept
  show j.totalJobs - 1 = _
  rw [total_insert]
  simp only [List.length_cons] at htotal
  omega

theorem waiting_served {job : α} {jobs : List α} (hjobs : j.queues.lookup id = some (job :: jobs))
    (x : GoString) :
    takenFrom x [(job, id)] ++ waiting (served j i id jobs) x = waiting j x := by
  by_cases hx : x = id
  · subst hx
    have htaken : takenFrom x [(job, x)] = [job] := by simp [takenFrom]
    have hleft : waiting (served j i x jobs) x = jobs := by
      rw [waiting, served]
      split
      · rename_i hnil
        rw [AList.lookup_erase, hnil]
        rfl
      · rw [AList.lookup_insert]
        rfl
    rw [htaken, hleft, waiting, hjobs]
    rfl
  have htaken : takenFrom x [(job, id)] = [] := by simp [takenFrom, Ne.symm hx]
  have hleft : waiting (served j i id jobs) x = waiting j x := by
    rw [waiting, served]
    split
    · rw [AList.lookup_erase_ne hx, AList.lookup_insert_ne hx]
      rfl
    · rw [AList.lookup_insert_ne hx]
      rfl
  rw [htaken, hleft, List.nil_append]

theorem takenFrom_append (id : GoString) (taken later : List (α × GoString)) :
    takenFrom id (taken ++ later) = takenFrom id taken ++ takenFrom id later := by
  rw [takenFrom, List.filter_append, List.map_append]
  rfl

theorem addedTo_cons (id : GoString) (call : JobCall α) (calls : List (JobCall α)) :
    addedTo id (call :: calls) = addedTo id [call] ++ addedTo id calls := by
  rw [← List.singleton_append, addedTo, List.filterMap_append]
  rfl

theorem Sound.recount {j k : JobManager α} (h : Sound j) (hqueues : k.queues = j.queues)
    (hindex : k.queuesIndex = j.queuesIndex) (htotal : k.totalJobs = j.totalJobs)
    (hlast : k.lastQueueAccessed = j.lastQueueAccessed) : Sound k := by
  refine ⟨?_, ?_, ?_, ?_, ?_⟩
  · rw [hindex]
    exact h.nodup
  · rw [hindex, hqueues]
    exact h.listed
  · rw [hqueues]
    exact h.nonempty
  · rw [htotal, hqueues]
    exact h.totalJobs
  · rw [hlast, hindex]
    exact h.cursor

theorem decrementWorkerCount_queues (j : JobManager α) (id : GoString) :
    ∃ counts, decrementWorkerCount j id = { j with workerCount := counts } := by
  rw [decrementWorkerCount]
  split
  · exact ⟨_, rfl⟩
  · exact ⟨_, rfl⟩

/-- A call does not panic, and what it takes and leaves of a queue is what was there and
what it adds. -/
theorem runCall_sound (limit : Nat → Int) (h : Sound j) (call : JobCall α) :
    ∃ taken next, runCall limit j call = some (taken, next) ∧ Sound next ∧
      ∀ id, takenFrom id taken.toList ++ waiting next id = waiting j id ++ addedTo id [call] := by
  cases call with
  | addJob job queueID =>
    refine ⟨none, addJob j job queueID, rfl, sound_addJob h job queueID, fun id => ?_⟩
    have hadded : addedTo id [JobCall.addJob job queueID] =
        if queueID = id then [job] else [] := by
      by_cases heq : queueID = id
      · simp [addedTo, heq]
      · simp [addedTo, heq]
    rw [waiting_addJob, hadded]
    rfl
  | getNextJob =>
    rcases getNextJob_cases limit h with hnone | ⟨i, id, job, jobs, hi, hjobs, htaken⟩
    · exact ⟨none, j, hnone, h, fun id => (List.append_nil _).symm⟩
    · refine ⟨some (job, id), _, htaken, sound_served h hi hjobs, fun x => ?_⟩
      rw [Option.toList_some, waiting_served hjobs]
      exact (List.append_nil _).symm
  | incrementWorkerCount queueID =>
    exact ⟨none, incrementWorkerCount j queueID, rfl, h.recount rfl rfl rfl rfl,
      fun id => (List.append_nil _).symm⟩
  | decrementWorkerCount queueID =>
    obtain ⟨counts, hcounts⟩ := decrementWorkerCount_queues j queueID
    refine ⟨none, decrementWorkerCount j queueID, rfl, ?_, ?_⟩
    · rw [hcounts]
      exact h.recount rfl rfl rfl rfl
    · intro id
      rw [hcounts]
      exact (List.append_nil _).symm

theorem runCalls_sound (limit : Nat → Int) (h : Sound j) (calls : List (JobCall α)) :
    ∃ taken last, runCalls limit j calls = some (taken, last) ∧ Sound last ∧
      ∀ id, takenFrom id taken ++ waiting last id = waiting j id ++ addedTo id calls := by
  induction calls generalizing j with
  | nil => exact ⟨[], j, rfl, h, fun id => (List.append_nil _).symm⟩
  | cons call calls ih =>
    obtain ⟨taken, next, hcall, hnext, hqueues⟩ := runCall_sound limit h call
    obtain ⟨later, last, hcalls, hlast, hrest⟩ := ih hnext
    refine ⟨taken.toList ++ later, last, ?_, hlast, fun id => ?_⟩
    · rw [runCalls, hcall]
      simp only [Option.bind_eq_bind, Option.bind_some, hcalls]
    calc takenFrom id (taken.toList ++ later) ++ waiting last id
        = takenFrom id taken.toList ++ (takenFrom id later ++ waiting last id) := by
          rw [takenFrom_append, List.append_assoc]
      _ = (takenFrom id taken.toList ++ waiting next id) ++ addedTo id calls := by
          rw [hrest id, List.append_assoc]
      _ = waiting j id ++ addedTo id (call :: calls) := by
          rw [hqueues id, List.append_assoc, ← addedTo_cons]

end VaultProofs.JobQueues
