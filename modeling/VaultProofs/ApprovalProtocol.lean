import VaultProofs.EntryCell
import VaultProofs.ApprovalHandlers

/-!
The approve, deny and fetch handlers as an automaton over one stored entry. A call is in a phase,
and its operations show on the entry as reads, writes or the dispatch of the parked request. What
holds across interleavings is proved of the automaton.
-/

namespace VaultProofs.ApprovalProtocol

open JsonValues EffectPrograms SharedCells ApprovalEntries VaultEffects ApprovalInterceptor
open ApprovalHandlers EntryCell

inductive Role where
  | approver (entityID : String)
  | denier
  | fetcher

/-- How far a call has come: `holding` is between the read and any write; `marked`, `cleared`,
`dispatched` and `failed` are stages of an execution, with the entry as it is stored. -/
inductive Phase where
  | idle
  | holding (p : PendingRequest)
  | marked (p : PendingRequest)
  | cleared (p : PendingRequest)
  | dispatched (p : PendingRequest)
  | failed (p : PendingRequest)
  | accepted
  | denied
  | burned
  | released
  | over

def Phase.copy : Phase → Option (Option PendingRequest)
  | .holding p => some (some p)
  | _ => none

/-- The stored entry of a call between its approval mark and its last write. -/
def Phase.running : Phase → Option PendingRequest
  | .marked x | .cleared x | .dispatched x | .failed x => some x
  | _ => none

/-- `x` is `p` with one more vote, by an entity that had none. -/
structure AddsVote (entityID : String) (p x : PendingRequest) : Prop where
  pending : p.status = .pending
  first : hasVoted entityID p = false
  approvals : ∃ time, x.approvals = p.approvals ++ [⟨entityID, time⟩]

inductive Move (id : String) : Role → Phase → EntryEvent → Phase → Prop
  | quiet {role : Role} {q : Phase} : Move id role q .quiet q
  | absent {role : Role} : Move id role .idle (.read none) .over
  | take {role : Role} {p : PendingRequest} : Move id role .idle (.read (some p)) (.holding p)
  | remove {role : Role} {p : PendingRequest} (hp : p.status = .pending) :
      Move id role (.holding p) (.write none) .over
  | vote {entityID : String} {p x : PendingRequest} (hvote : AddsVote entityID p x)
      (hstatus : x.status = .pending) (hid : x.requestID = id) :
      Move id (.approver entityID) (.holding p) (.write (some x)) .accepted
  | mark {entityID : String} {p x : PendingRequest} (hvote : AddsVote entityID p x)
      (hstatus : x.status = .approved) (hid : x.requestID = id) :
      Move id (.approver entityID) (.holding p) (.write (some x)) (.marked x)
  | rereadDone {entityID : String} {x : PendingRequest} {y : Option PendingRequest} :
      Move id (.approver entityID) (.marked x) (.read y) .accepted
  | reread {entityID : String} {x : PendingRequest} {y : Option PendingRequest} :
      Move id (.approver entityID) (.marked x) (.read y) (.cleared x)
  | abort {entityID : String} {x : PendingRequest} :
      Move id (.approver entityID) (.cleared x) .quiet (.failed x)
  | dispatch {entityID : String} {x : PendingRequest} :
      Move id (.approver entityID) (.cleared x) (.signal true) (.dispatched x)
  | dispatchFailed {entityID : String} {x : PendingRequest} :
      Move id (.approver entityID) (.cleared x) (.signal false) (.failed x)
  | execute {entityID : String} {x y : PendingRequest} (hstatus : y.status = x.status)
      (happrovals : y.approvals = x.approvals) (hid : y.requestID = id) :
      Move id (.approver entityID) (.dispatched x) (.write (some y)) .accepted
  | rollback {entityID : String} {x y : PendingRequest} (hid : y.requestID = id) :
      Move id (.approver entityID) (.failed x) (.write (some y)) .over
  | deny {p y : PendingRequest} (hp : p.status = .pending) (hstatus : y.status = .denied)
      (hid : y.requestID = id) : Move id .denier (.holding p) (.write (some y)) .denied
  | expire {p : PendingRequest} (hp : p.status = .approved) :
      Move id .fetcher (.holding p) (.write none) .over
  | burn {p y : PendingRequest} (hp : p.credentialData.isSome) (hy : y.credentialData = none)
      (hid : y.requestID = id) : Move id .fetcher (.holding p) (.write (some y)) .burned
  | release : Move id .fetcher .burned (.write none) .released
  | releaseUnmarked {p : PendingRequest} (hp : p.credentialData.isSome) :
      Move id .fetcher (.holding p) (.write none) .released

variable {id : String} {role : Role} {q q' : Phase} {event : EntryEvent}

theorem Move.copy_eq (hmove : Move id role q event q') (value : Option PendingRequest)
    (hvalue : q'.copy = some value) :
    event = .read value ∨ (event.access = .none ∧ q.copy = some value) := by
  cases hmove with
  | quiet => exact .inr ⟨rfl, hvalue⟩
  | take =>
    left
    rw [Option.some.inj hvalue]
  | _ => cases hvalue

theorem Move.running_eq (hmove : Move id role q event q') {x : PendingRequest}
    (hx : q'.running = some x) :
    (∃ p, q = .holding p ∧ p.status = .pending ∧ event = .write (some x) ∧
      x.status = .approved) ∨
    (q.running = some x ∧ event.access ≠ .write) := by
  cases hmove with
  | quiet | reread | abort | dispatch | dispatchFailed => exact .inr ⟨hx, by simp [Event.access]⟩
  | mark hvote hstatus =>
    obtain rfl := Option.some.inj hx
    exact .inl ⟨_, rfl, hvote.pending, rfl, hstatus⟩
  | _ => cases hx

/-- Approve and deny calls write from a copy read as pending, or in the course of an execution. -/
theorem Move.writer {value : Option PendingRequest}
    (hmove : Move id role q (.write value) q') (hrole : role ≠ .fetcher) :
    (∃ p, q = .holding p ∧ p.status = .pending) ∨ ∃ x, q.running = some x := by
  cases hmove with
  | remove hp | deny hp => exact .inl ⟨_, rfl, hp⟩
  | vote hvote | mark hvote => exact .inl ⟨_, rfl, hvote.pending⟩
  | execute | rollback => exact .inr ⟨_, rfl⟩
  | _ => exact absurd rfl hrole

theorem Move.requestID_eq {x : PendingRequest} (hmove : Move id role q (.write (some x)) q') :
    x.requestID = id := by
  cases hmove <;> assumption

/-- Storage answers every operation, and an entry it returns carries its ID. -/
def entryAdmits (id : String) : (op : VaultOp) → op.Answer → Prop
  | .storageGet key, answer => ∃ blob, answer = .ok blob ∧
      (key = pendingKey id → ∀ p, decodePending blob = some p → p.requestID = id)
  | .storagePut _ _, answer => answer = .ok ()
  | .storageDelete _, answer => answer = .ok ()
  | _, _ => True

def entryProtocol (id : String) (role : Role) : Protocol vault Phase :=
  (entryView id).protocol (entryAdmits id) (Move id role)

variable {β : Type} {final : Phase → β → Prop}

theorem follows_quiet (op : VaultOp) {f : op.Answer → VaultProg β}
    (hquiet : ∀ answer, entryAdmits id op answer → entryEvent id op answer = .quiet)
    (hnext : ∀ answer, (entryProtocol id role).Follows final q (f answer)) :
    (entryProtocol id role).Follows final q (Prog.perform (I := vault) op >>= f) := by
  intro answer hanswer
  refine ⟨q, ?_, hnext answer⟩
  change Move id role q (entryEvent id op answer) q
  rw [hquiet answer hanswer]
  exact Move.quiet

theorem follows_timeNow {f : Time → VaultProg β}
    (hnext : ∀ now, (entryProtocol id role).Follows final q (f now)) :
    (entryProtocol id role).Follows final q (timeNow >>= f) :=
  follows_quiet .timeNow (fun _ _ => rfl) hnext

theorem follows_getApprovalRule {ruleID : String}
    {f : Except GoError (Option ApprovalRule) → VaultProg β}
    (hnext : ∀ found, (entryProtocol id role).Follows final q (f found)) :
    (entryProtocol id role).Follows final q (getApprovalRule ruleID >>= f) := by
  refine follows_quiet (.storageGet (configKey ruleID)) ?_ fun answer => hnext _
  rintro answer ⟨blob, rfl, -⟩
  simp [entryEvent, configKey, pendingKey]

variable {f : Except GoError Unit → VaultProg β}

theorem follows_storeHistoryEntry {h : ApprovalHistoryEntry}
    (hnext : ∀ stored, (entryProtocol id role).Follows final q (f stored)) :
    (entryProtocol id role).Follows final q (storeHistoryEntry h >>= f) := by
  refine follows_quiet (.storagePut (historyKey h.requestID) h.marshalJSON) ?_ hnext
  rintro answer rfl
  simp [entryEvent, historyKey, pendingKey]

theorem follows_doRouting {req : Request} {f : Reply → VaultProg β}
    (hnext : ∀ reply, ∃ q', Move id role q (.signal reply.err.isNone) q' ∧
      (entryProtocol id role).Follows final q' (f reply)) :
    (entryProtocol id role).Follows final q (doRouting req >>= f) := by
  rintro reply -
  exact hnext reply

theorem follows_getPendingRequest
    {f : Except GoError (Option PendingRequest) → VaultProg β}
    (hnone : ∀ found, (∀ p, found ≠ .ok (some p)) →
      ∃ q', Move id role q (.read none) q' ∧ (entryProtocol id role).Follows final q' (f found))
    (hsome : ∀ p, p.requestID = id → ∃ q', Move id role q (.read (some p)) q' ∧
      (entryProtocol id role).Follows final q' (f (.ok (some p)))) :
    (entryProtocol id role).Follows final q (getPendingRequest id >>= f) := by
  rintro answer ⟨blob, rfl, hkeyed⟩
  change ∃ q', Move id role q (entryEvent id (.storageGet (pendingKey id)) (.ok blob)) q' ∧
    (entryProtocol id role).Follows final q'
      (f (decodeEntry PendingRequest.decodeJSON (.ok blob)))
  simp only [entryEvent, if_true]
  cases hblob : decodePending blob with
  | none =>
    apply hnone
    intro p hp
    have hdecoded := (decodeEntry_eq_some_iff PendingRequest.decodeJSON blob p).mp hp
    rw [decodePending, hdecoded] at hblob
    cases hblob
  | some p =>
    have hdecoded := (decodeEntry_eq_some_iff PendingRequest.decodeJSON blob p).mpr hblob
    rw [hdecoded]
    exact hsome p (hkeyed rfl p hblob)

/-- A write of the entry fails to encode, without an operation, or shows as a write of the
normalised entry. -/
theorem follows_storePendingRequest {r : PendingRequest} (hid : r.requestID = id)
    (hfail : r.marshalJSON = none →
      (entryProtocol id role).Follows final q (f (.error encodeFailed)))
    (hwrite : ∀ value, r.marshalJSON = some value →
      ∃ q', Move id role q (.write (some r.normalize)) q' ∧
        (entryProtocol id role).Follows final q' (f (.ok ()))) :
    (entryProtocol id role).Follows final q (storePendingRequest r >>= f) := by
  unfold storePendingRequest
  split
  · rename_i hnone
    exact hfail hnone
  rename_i value hvalue
  obtain ⟨q', hq', hnext⟩ := hwrite value hvalue
  rintro answer rfl
  refine ⟨q', ?_, hnext⟩
  change Move id role q (entryEvent id (.storagePut (pendingKey r.requestID) value) (.ok ())) q'
  simp only [entryEvent, hid, if_true]
  rw [PendingRequest.decodeJSON_marshalJSON hvalue]
  exact hq'

theorem follows_storageDelete
    (hwrite : ∃ q', Move id role q (.write none) q' ∧
      (entryProtocol id role).Follows final q' (f (.ok ()))) :
    (entryProtocol id role).Follows final q (storageDelete (pendingKey id) >>= f) := by
  obtain ⟨q', hq', hnext⟩ := hwrite
  rintro answer rfl
  refine ⟨q', ?_, hnext⟩
  change Move id role q (entryEvent id (.storageDelete (pendingKey id)) (.ok ())) q'
  simp only [entryEvent, if_true]
  exact hq'

end VaultProofs.ApprovalProtocol
