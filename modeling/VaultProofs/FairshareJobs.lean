import VaultProofs.GoSlices
import VaultProofs.GoStrings
import Mathlib.Data.List.AList

/-!
The fairsharing job manager: queues of jobs by ID, the order in which they were created, the queue
accessed last, and the workers on each queue. Where the code would panic (an index out of range, a
division by zero, a queue that is missing or empty) there is no result.
-/

namespace VaultProofs.FairshareJobs

open GoStrings GoSlices

variable {α : Type}

structure JobManager (α : Type) where
  queues : AList (fun _ : GoString => List α) := ∅
  workerCount : AList (fun _ : GoString => Int) := ∅
  totalJobs : Int := 0
  queuesIndex : List GoString := []
  lastQueueAccessed : Int := -1

/-- `maxWorkersPerQueue` is what the pool allows a queue when so many queues are active. -/
def queueWorkersSaturated (maxWorkersPerQueue : Nat → Int) (j : JobManager α)
    (queueID : GoString) : Bool :=
  maxWorkersPerQueue j.queues.keys.length ≤ (j.workerCount.lookup queueID).getD 0

def addQueue (j : JobManager α) (queueID : GoString) : JobManager α :=
  let added :=
    if queueID ∈ j.queues then j
    else
      { j with
        queues := j.queues.insert queueID []
        queuesIndex := j.queuesIndex ++ [queueID] }
  if queueID ∈ added.workerCount then added
  else { added with workerCount := added.workerCount.insert queueID 0 }

def addJob (j : JobManager α) (job : α) (queueID : GoString) : JobManager α :=
  let added := if queueID ∈ j.queues then j else addQueue j queueID
  { added with
    queues := added.queues.insert queueID ((added.queues.lookup queueID).getD [] ++ [job])
    totalJobs := added.totalJobs + 1 }

def nextQueueIndex (j : JobManager α) (currentIdx : Int) : Option Int :=
  if j.queuesIndex.length = 0 then none
  else some ((currentIdx + 1).tmod j.queuesIndex.length)

/-- The loop of `getNextQueue`, for so many more queues. -/
def findQueue (maxWorkersPerQueue : Nat → Int) (j : JobManager α) :
    Nat → Int → Option (Option (Int × GoString))
  | 0, _ => some none
  | rounds + 1, queueIdx => do
      let potentialQueueID ← slot j.queuesIndex queueIdx
      if queueWorkersSaturated maxWorkersPerQueue j potentialQueueID then
        let next ← nextQueueIndex j queueIdx
        findQueue maxWorkersPerQueue j rounds next
      else some (some (queueIdx, potentialQueueID))

def getNextQueue (maxWorkersPerQueue : Nat → Int) (j : JobManager α) :
    Option (Option GoString × JobManager α) := do
  let queueIdx ← nextQueueIndex j j.lastQueueAccessed
  let found ← findQueue maxWorkersPerQueue j j.queuesIndex.length queueIdx
  match found with
  | none => some (none, j)
  | some (accessed, queueID) => some (some queueID, { j with lastQueueAccessed := accessed })

def removeLastQueueAccessed (j : JobManager α) : Option (JobManager α) :=
  if j.lastQueueAccessed = -1 ∨ j.lastQueueAccessed > j.queuesIndex.length - 1 then some j
  else do
    let queueID ← slot j.queuesIndex j.lastQueueAccessed
    let index := j.queuesIndex.eraseIdx j.lastQueueAccessed.toNat
    some
      { j with
        queues := j.queues.erase queueID
        queuesIndex := index
        lastQueueAccessed :=
          if j.lastQueueAccessed > 0 then j.lastQueueAccessed - 1 else index.length - 1 }

def getNextJob (maxWorkersPerQueue : Nat → Int) (j : JobManager α) :
    Option (Option (α × GoString) × JobManager α) :=
  if j.queues.keys.length = 0 then some (none, j)
  else do
    let next ← getNextQueue maxWorkersPerQueue j
    match next with
    | (none, j) => some (none, j)
    | (some queueID, j) =>
      match j.queues.lookup queueID with
      | none => none
      | some [] => none
      | some (job :: jobs) =>
        let taken : JobManager α :=
          { j with
            queues := j.queues.insert queueID jobs
            totalJobs := j.totalJobs - 1 }
        if jobs.length = 0 then do
          let pruned ← removeLastQueueAccessed taken
          some (some (job, queueID), pruned)
        else some (some (job, queueID), taken)

def incrementWorkerCount (j : JobManager α) (queueID : GoString) : JobManager α :=
  { j with workerCount := j.workerCount.insert queueID ((j.workerCount.lookup queueID).getD 0 + 1) }

def decrementWorkerCount (j : JobManager α) (queueID : GoString) : JobManager α :=
  let count := (j.workerCount.lookup queueID).getD 0 - 1
  let counted := { j with workerCount := j.workerCount.insert queueID count }
  if queueID ∉ j.queues ∧ count < 1 then
    { counted with workerCount := counted.workerCount.erase queueID }
  else counted

inductive JobCall (α : Type) where
  | addJob (job : α) (queueID : GoString)
  | getNextJob
  | incrementWorkerCount (queueID : GoString)
  | decrementWorkerCount (queueID : GoString)

def runCall (maxWorkersPerQueue : Nat → Int) (j : JobManager α) :
    JobCall α → Option (Option (α × GoString) × JobManager α)
  | .addJob job queueID => some (none, addJob j job queueID)
  | .getNextJob => getNextJob maxWorkersPerQueue j
  | .incrementWorkerCount queueID => some (none, incrementWorkerCount j queueID)
  | .decrementWorkerCount queueID => some (none, decrementWorkerCount j queueID)

def runCalls (maxWorkersPerQueue : Nat → Int) (j : JobManager α) :
    List (JobCall α) → Option (List (α × GoString) × JobManager α)
  | [] => some ([], j)
  | call :: calls => do
      let (taken, next) ← runCall maxWorkersPerQueue j call
      let (later, last) ← runCalls maxWorkersPerQueue next calls
      some (taken.toList ++ later, last)

end VaultProofs.FairshareJobs
