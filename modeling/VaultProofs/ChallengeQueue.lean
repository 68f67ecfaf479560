import Mathlib.Logic.Function.Basic
import VaultProofs.RacingCalls

/-!
The validations of ACME challenges: a stored entry for each, and the queue from which the engine
takes them.
-/

namespace VaultProofs.ChallengeQueue

open RunHistories RacingCalls

abbrev Identifier := Nat

structure ChallengeValidation where
  retryCount : Nat
  retryAfter : Option Nat
  deriving DecidableEq

structure ChallengeQueueEntry where
  identifier : Identifier
  retryAfter : Option Nat
  numRetries : Nat

/-- What is stored under the validation prefix, and the queue with the clock of the round and the
first task that could not be taken. -/
structure Store where
  stored : Identifier → Option ChallengeValidation
  validations : List ChallengeQueueEntry
  now : Nat
  firstIdentifier : Option Identifier

def Store.put (s : Store) (id : Identifier) (cv : Option ChallengeValidation) : Store :=
  { s with stored := Function.update s.stored id cv }

@[grind =] theorem stored_put {s : Store} {id id' : Identifier} {cv : Option ChallengeValidation} :
    (s.put id cv).stored id' = if id' = id then cv else s.stored id' :=
  Function.update_apply ..

inductive Stage where
  | getEntry
  | putEntry
  | saveAuthorization
  | pushBack
  | loadEntry
  | validate (cv : ChallengeValidation)
  | updateStatus (cv : ChallengeValidation)
  | putRetry (cv : ChallengeValidation)
  | cleanup
  | retry (retryAfter : Nat)
  | giveUp
  | finished
  deriving DecidableEq

structure Call where
  identifier : Identifier
  numRetries : Nat
  stage : Stage

inductive Verdict where
  | unreadable | rejected | failed | valid

structure Env where
  fails : Bool
  now : Nat
  /-- `AcceptChallenge` refuses the authorization or one of its challenges. -/
  refused : Bool
  pending : Bool
  verdict : Verdict

def maxRetryAttempts : Nat := 5

def callNext (env : Env) (call : Call) (s : Store) : Call × Store :=
  let put := s.put call.identifier
  match call.stage with
  | .getEntry =>
    let queued := env.fails = false ∧ s.stored call.identifier ≠ none
    ({ call with stage := if queued ∨ env.refused then .finished else .putEntry }, s)
  | .putEntry =>
    if env.fails then ({ call with stage := .finished }, s)
    else
      ({ call with stage := if env.pending then .saveAuthorization else .pushBack },
        put (some ⟨0, none⟩))
  | .saveAuthorization =>
    ({ call with stage := if env.fails then .finished else .pushBack }, s)
  | .pushBack =>
    ({ call with stage := .finished },
      { s with validations := s.validations ++ [⟨call.identifier, none, 0⟩] })
  | .loadEntry =>
    if env.fails then ({ call with stage := .retry (env.now + 1) }, s)
    else
      match s.stored call.identifier with
      | none => ({ call with stage := .cleanup }, s)
      | some cv =>
        if cv.retryAfter.any (env.now < ·) then
          ({ call with stage := .retry (cv.retryAfter.getD 0) }, s)
        else ({ call with stage := .validate cv }, s)
  | .validate cv =>
    let stage :=
      match env.verdict with
      | .unreadable => .retry (env.now + 1)
      | .rejected => .cleanup
      | .failed => .updateStatus cv
      | .valid => if env.fails then .updateStatus cv else .cleanup
    ({ call with stage }, s)
  | .updateStatus cv =>
    if env.fails then ({ call with stage := .retry env.now }, s)
    else
      let spent := cv.retryCount > maxRetryAttempts
      ({ call with stage := if spent then .cleanup else .putRetry cv }, s)
  | .putRetry cv =>
    let retryAfter := env.now + (cv.retryCount + 1) * 5
    if env.fails then ({ call with stage := .retry env.now }, s)
    else
      ({ call with stage := .retry retryAfter }, put (some ⟨cv.retryCount + 1, some retryAfter⟩))
  | .cleanup =>
    if env.fails then ({ call with stage := .retry (env.now + 1) }, s)
    else ({ call with stage := .finished }, put none)
  | .retry retryAfter =>
    let numRetries := call.numRetries + 1
    if numRetries > maxRetryAttempts * 2 then ({ call with stage := .giveUp }, s)
    else
      ({ call with stage := .finished },
        { s with
          validations := s.validations ++ [⟨call.identifier, some retryAfter, numRetries⟩] })
  | .giveUp => ({ call with stage := .finished }, if env.fails then s else put none)
  | .finished => (call, s)

def ChallengeQueueEntry.waits (task : ChallengeQueueEntry) (now : Nat) : Bool :=
  task.retryAfter.any (now < ·)

/-- The engine takes the front of the queue; `fails` says whether the configuration can be read. -/
def take (fails : Bool) (s : Race Store Call) : Race Store Call :=
  match s.store.validations with
  | [] => { s with store.firstIdentifier := none }
  | task :: rest =>
    let validations := if task.waits s.store.now then rest ++ [task] else rest
    if s.store.firstIdentifier = some task.identifier then
      { s with store := { s.store with validations, firstIdentifier := none } }
    else if task.waits s.store.now then
      { s with
        store.validations := validations
        store.firstIdentifier := s.store.firstIdentifier.or (some task.identifier) }
    else
      { store := { s.store with validations, firstIdentifier := none }
        calls :=
          if fails then s.calls else s.calls ++ [⟨task.identifier, task.numRetries, .loadEntry⟩] }

inductive Action where
  | acceptChallenge (identifier : Identifier)
  | round (now : Nat)
  | take (fails : Bool)
  | turn (i : Nat) (env : Env)

def step (s : Race Store Call) : Action → Race Store Call
  | .acceptChallenge identifier => { s with calls := s.calls ++ [⟨identifier, 0, .getEntry⟩] }
  | .round now => { s with store.now := now, store.firstIdentifier := none }
  | .take fails => take fails s
  | .turn i env => turn callNext s (i, env)

@[grind] def Stage.accepting : Stage → Bool
  | .getEntry => true
  | .putEntry => true
  | .saveAuthorization => true
  | .pushBack => true
  | _ => false

@[grind] def Stage.verifying (stage : Stage) : Bool :=
  !stage.accepting && stage != .finished

@[grind] def Stage.holds : Stage → Bool
  | .getEntry => false
  | .putEntry => false
  | .finished => false
  | _ => true

/-- The configuration is read, and the authorization is saved and the entry of a challenge that is
given up deleted. -/
def Tended (s : Race Store Call) : Action → Prop
  | .take fails => fails = false
  | .turn i env => env.fails = true → ∀ call ∈ s.calls[i]?,
      call.stage ≠ .saveAuthorization ∧ call.stage ≠ .giveUp
  | _ => True

structure Held (s : Race Store Call) : Prop where
  held : ∀ id, s.store.stored id ≠ none → (∃ task ∈ s.store.validations, task.identifier = id) ∨
    ∃ call ∈ s.calls, call.identifier = id ∧ call.stage.holds
  first : ∀ id, s.store.firstIdentifier = some id → ∃ task ∈ s.store.validations,
    task.identifier = id ∧ task.waits s.store.now

variable {s : Race Store Call}

/-- A call holds its entry, has queued it, or leaves it to those who hold it. -/
structure Tends (call call' : Call) (s s' : Store) : Prop where
  identifier : call'.identifier = call.identifier
  others : ∀ id, id ≠ call.identifier → s'.stored id = s.stored id
  queued : ∀ task ∈ s.validations, task ∈ s'.validations
  round : s'.now = s.now ∧ s'.firstIdentifier = s.firstIdentifier
  held : s'.stored call.identifier ≠ none → call'.stage.holds = true ∨
    (∃ task ∈ s'.validations, task.identifier = call.identifier) ∨
      call.stage.holds = false ∧ s.stored call.identifier ≠ none

theorem callNext_tends {env : Env} {call : Call} {s : Store}
    (h : env.fails = true → call.stage ≠ .saveAuthorization ∧ call.stage ≠ .giveUp) :
    Tends call (callNext env call s).1 s (callNext env call s).2 := by
  obtain ⟨id, numRetries, stage⟩ := call
  refine ⟨?_, ?_, ?_, ?_, ?_⟩
  iterate 4 cases stage <;> grind [callNext, Store.put]
  intro hstored
  have hpush : ∀ task, task ∈ s.validations ++ [task] := by simp
  cases stage with
  | pushBack => exact .inr (.inl ⟨_, hpush _, rfl⟩)
  | retry retryAfter =>
    by_cases hmax : numRetries + 1 > maxRetryAttempts * 2
    · simp [callNext, hmax, Stage.holds]
    · simp [callNext, hmax]
  | _ => grind [callNext]

theorem Held.turn {i : Nat} {env : Env} (h : Held s) (ha : Tended s (.turn i env)) :
    Held (step s (.turn i env)) := by
  change Held (RacingCalls.turn callNext s (i, env))
  refine turn_keeps (fun call hi => ?_) h
  obtain ⟨hid, hothers, hqueued, hround, hheld⟩ :=
    callNext_tends (s := s.store) fun hfails => ha hfails call hi
  constructor
  · intro id hstored
    by_cases hnew : id = call.identifier ∧ (call.stage.holds = true ∨ s.store.stored id = none)
    · rcases hheld (hnew.1 ▸ hstored) with hholds | hqueue | hleft
      · exact .inr ⟨_, List.mem_of_getElem? (List.getElem?_set_self (by grind)),
          hid.trans hnew.1.symm, hholds⟩
      · exact .inl (hnew.1 ▸ hqueue)
      · grind
    -- Whoever had the entry before the step still has it.
    · rcases h.held id (by grind) with ⟨task, htask, hid⟩ | ⟨other, hmem, hother⟩
      · exact .inl ⟨task, hqueued task htask, hid⟩
      · obtain ⟨j, hj⟩ := List.mem_iff_getElem?.mp hmem
        exact .inr ⟨other, List.mem_iff_getElem?.mpr ⟨j, by grind⟩, hother⟩
  · intro id hfirst
    obtain ⟨task, htask, hid⟩ := h.first id (hround.2 ▸ hfirst)
    exact ⟨task, hqueued task htask, by grind⟩

theorem Held.take {fails : Bool} (h : Held s) (ha : Tended s (.take fails)) :
    Held (step s (.take fails)) := by
  obtain ⟨hheld, hfirst⟩ := h
  cases ha
  simp only [step, ChallengeQueue.take, Bool.false_eq_true, if_false]
  split
  · constructor <;> grind
  rename_i task rest hqueue
  have hworker : ∀ call, call ∈ s.calls ++ [call] := by simp
  split_ifs <;> constructor <;> cases hf : s.store.firstIdentifier <;> grind

theorem Held.step {a : Action} (h : Held s) (ha : Tended s a) : Held (step s a) := by
  cases a with
  | acceptChallenge id =>
    obtain ⟨hheld, hfirst⟩ := h
    constructor <;> grind [ChallengeQueue.step]
  | round now => exact ⟨h.held, by simp [ChallengeQueue.step]⟩
  | take fails => exact h.take ha
  | turn i env => exact h.turn ha

/-- Between the calls, every stored entry is queued or being worked on. -/
theorem accepted_never_stranded {history : List Action} {id : Identifier}
    (hs : ∀ id, s.store.stored id ≠ none → ∃ task ∈ s.store.validations, task.identifier = id)
    (hfirst : s.store.firstIdentifier = none) (hrun : Orderly step Tended s history)
    (hidle : ∀ call ∈ (final step s history).calls, call.stage.accepting = false)
    (hid : (final step s history).store.stored id ≠ none) :
    (∃ task ∈ (final step s history).store.validations, task.identifier = id) ∨
      ∃ call ∈ (final step s history).calls,
        call.identifier = id ∧ call.stage.verifying = true := by
  have hstart : Held s := ⟨fun id hid => .inl (hs id hid), by simp [hfirst]⟩
  have hend := (hrun.keeps (fun _ _ => Held.step) hstart).held id hid
  grind

def noChallenge : Race Store Call :=
  ⟨⟨fun _ => none, [], 0, none⟩, []⟩

def acceptance (fails : Bool) : List Action :=
  .acceptChallenge 3 :: [false, false, fails, false].map fun fails =>
    .turn 0 ⟨fails, 0, false, true, .valid⟩

theorem accepted_queued :
    (∃ task ∈ (final step noChallenge (acceptance false)).store.validations, task.identifier = 3) ∨
      ∃ call ∈ (final step noChallenge (acceptance false)).calls,
        call.identifier = 3 ∧ call.stage.verifying = true :=
  accepted_never_stranded (by simp [noChallenge]) rfl (by simp [Orderly, acceptance, Tended])
    (by decide) (by decide)

theorem accepted_stranded :
    (final step noChallenge (acceptance true)).store.stored 3 = some ⟨0, none⟩ ∧
    (final step noChallenge (acceptance true)).store.validations.map (·.identifier) = [] ∧
    (final step noChallenge (acceptance true)).calls.map (·.stage) = [.finished] := by
  decide

end VaultProofs.ChallengeQueue
