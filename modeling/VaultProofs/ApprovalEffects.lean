import VaultProofs.ApprovalExecution

/-!
Every operation of an approve call, whatever fails.
-/

namespace VaultProofs.ApprovalEffects

open JsonValues EffectPrograms ApprovalEntries VaultEffects ApprovalInterceptor ApprovalHandlers
open ApprovalExecution

variable {α : Type} {env : Env} {ok : VaultOp → Prop} {w : World}

theorem storedPending_of_read {id : String} {p : PendingRequest}
    (h : decodeEntry PendingRequest.decodeJSON (exec env (.storageGet (pendingKey id)) w).1 =
      .ok (some p)) : storedPending w.store id = some p := by
  simp only [exec] at h
  split at h
  · cases h
  · exact (decodeEntry_eq_some_iff _ _ _).mp h

variable {ruleID : String}

theorem storedRule_of_read {rule : ApprovalRule}
    (h : decodeEntry ApprovalRule.decodeJSON (exec env (.storageGet (configKey ruleID)) w).1 =
      .ok (some rule)) : storedRule w.store ruleID = some rule := by
  simp only [exec] at h
  split at h
  · cases h
  · exact (decodeEntry_eq_some_iff _ _ _).mp h

theorem storedRule_of_read_none
    (h : decodeEntry ApprovalRule.decodeJSON (exec env (.storageGet (configKey ruleID)) w).1 =
      .ok none) : storedRule w.store ruleID = none := by
  simp only [exec] at h
  split at h
  · cases h
  unfold storedRule
  cases hlookup : w.store.lookup (configKey ruleID) with
  | none => rfl
  | some blob =>
    rw [hlookup] at h
    simp only [decodeEntry] at h
    split at h <;> cases h

theorem runPerforms_getPendingRequest {id : String}
    {f : Except GoError (Option PendingRequest) → VaultProg α}
    (hok : ok (.storageGet (pendingKey id)))
    (hf : ∀ found, (∀ p, found = .ok (some p) → storedPending w.store id = some p) →
      (f found).RunPerforms (exec env) ok w.tick) :
    (getPendingRequest id >>= f).RunPerforms (exec env) ok w := by
  refine Prog.runPerforms_bind.mpr ⟨⟨hok, trivial⟩, ?_⟩
  rw [run_getPendingRequest, exec_storageGet_snd]
  exact hf _ fun p hp => storedPending_of_read hp

theorem runPerforms_getApprovalRule {f : Except GoError (Option ApprovalRule) → VaultProg α}
    (hok : ok (.storageGet (configKey ruleID)))
    (hf : ∀ found, (∀ rule, found = .ok (some rule) → storedRule w.store ruleID = some rule) →
      (found = .ok none → storedRule w.store ruleID = none) →
      (f found).RunPerforms (exec env) ok w.tick) :
    (getApprovalRule ruleID >>= f).RunPerforms (exec env) ok w := by
  refine Prog.runPerforms_bind.mpr ⟨⟨hok, trivial⟩, ?_⟩
  rw [run_getApprovalRule, exec_storageGet_snd]
  exact hf _ (fun rule hrule => storedRule_of_read hrule) storedRule_of_read_none

inductive VoteEntry (env : Env) (req : Request) (p : PendingRequest) : PendingRequest → Prop where
  | cast : VoteEntry env req p (castVote req p env.now)
  | marked : VoteEntry env req p (markedEntry req p env.now)
  | executed {execID : String} (uuid : env.uuid = .ok execID)
      (answered : (env.backend (executedRequest env req p execID)).err = none) :
      VoteEntry env req p (withCredential (markedEntry req p env.now)
        (env.backend (executedRequest env req p execID)).resp env.now)
  | rolledBack {r : PendingRequest} (entry : VoteEntry env req p r)
      (status : r.status = .approved) : VoteEntry env req p (rolledBack r)

inductive Approving (core : Core) (env : Env) (store : Store) (req : Request) (id : String) :
    VaultOp → Prop where
  | get (key : Key) : Approving core env store req id (.storageGet key)
  | now : Approving core env store req id .timeNow
  | uuid : Approving core env store req id .generateUUID
  | expire {p : PendingRequest} (entry : storedPending store id = some p)
      (status : p.status = .pending) (late : p.expiresAt < env.now) :
      Approving core env store req id (.storageDelete (pendingKey id))
  | orphan {p : PendingRequest} (entry : storedPending store id = some p)
      (status : p.status = .pending) (live : env.now ≤ p.expiresAt)
      (rule : storedRule store p.ruleID = none) :
      Approving core env store req id (.storageDelete (pendingKey id))
  | put {p r : PendingRequest} {rule : ApprovalRule} {value : Json}
      (admitted : Admitted core env.now store req id p rule) (entry : VoteEntry env req p r)
      (encoded : r.marshalJSON = some value) :
      Approving core env store req id (.storagePut (pendingKey r.requestID) value)
  | route {p : PendingRequest} {rule : ApprovalRule} {execID : String}
      (admitted : Admitted core env.now store req id p rule)
      (threshold : thresholdMet rule (castVote req p env.now) = true)
      (uuid : env.uuid = .ok execID) :
      Approving core env store req id (.doRouting (executedRequest env req p execID))

variable {core : Core} {store : Store} {req : Request} {id : String} {p : PendingRequest}
  {rule : ApprovalRule}

variable {r : PendingRequest}

theorem VoteEntry.approvals_eq (h : VoteEntry env req p r) :
    r.approvals = p.approvals ++ [⟨req.entityID, env.now⟩] ∨ r.approvals = p.approvals := by
  have hdrop : ∀ {r : PendingRequest}, VoteEntry env req p r → r.status = .approved →
      r.approvals = p.approvals ++ [⟨req.entityID, env.now⟩] := by
    intro r hr hstatus
    cases hr with
    | rolledBack hentry _ => cases hstatus
    | _ => rfl
  cases h with
  | rolledBack hentry hstatus =>
    right
    have hvotes := hdrop hentry hstatus
    simp [ApprovalHandlers.rolledBack, hvotes]
  | _ => exact .inl rfl

theorem VoteEntry.parked_eq (h : VoteEntry env req p r) : r.parked = p.parked := by
  induction h with
  | cast | marked | executed _ _ => rfl
  | rolledBack _ _ ih => exact ih

theorem VoteEntry.status_ne_denied {env : Env} {req : Request} {p q : PendingRequest}
    (h : VoteEntry env req p q) (hp : p.status = .pending) : q.status ≠ .denied := by
  induction h with
  | cast => simp [castVote, hp]
  | marked => simp [markedEntry]
  | executed => simp [withCredential, markedEntry]
  | rolledBack => simp [ApprovalHandlers.rolledBack]

theorem VoteEntry.credential (h : VoteEntry env req p r) :
    (r.credentialData = p.credentialData ∧ r.approvedAt = p.approvedAt) ∨
      ∃ execID, env.uuid = .ok execID ∧
        (env.backend (executedRequest env req p execID)).err = none ∧
        r.credentialData =
          some (responseData (env.backend (executedRequest env req p execID)).resp) ∧
        r.approvedAt = env.now := by
  induction h with
  | cast | marked => exact .inl ⟨rfl, rfl⟩
  | executed huuid hanswered => exact .inr ⟨_, huuid, hanswered, rfl, rfl⟩
  | rolledBack _ _ ih => exact ih

theorem storePendingRequest_approving {w : World} (h : Admitted core env.now store req id p rule)
    (hr : VoteEntry env req p r) :
    (storePendingRequest r).RunPerforms (exec env) (Approving core env store req id) w := by
  unfold storePendingRequest
  split
  · trivial
  · rename_i value hvalue
    exact ⟨.put h hr hvalue, trivial⟩

section

variable (h : Admitted core env.now store req id p rule)
  (hmet : thresholdMet rule (castVote req p env.now) = true) (w : World)

include h hmet

/-- The execution dispatches once and leaves in memory what can be rolled back. -/
theorem executeApprovedRequest_approving :
    (executeApprovedRequest (markedEntry req p env.now)).RunPerforms (exec env)
        (Approving core env store req id) w ∧
      VoteEntry env req p
        ((executeApprovedRequest (markedEntry req p env.now)).run (exec env) w).1.2 ∧
      ((executeApprovedRequest (markedEntry req p env.now)).run (exec env) w).1.2.status =
        .approved := by
  unfold executeApprovedRequest
  rw [Prog.runPerforms_bind, Prog.run_bind, run_generateUUID]
  cases huuid : env.uuid with
  | error e => exact ⟨⟨⟨.uuid, trivial⟩, trivial⟩, .marked, rfl⟩
  | ok execID =>
    rw [Prog.runPerforms_bind, Prog.run_bind, run_doRouting]
    cases hreply :
        (env.backend (reconstructedRequest (markedEntry req p env.now) execID)).err with
    | some e => exact ⟨⟨⟨.uuid, trivial⟩, ⟨.route h hmet huuid, trivial⟩, trivial⟩, .marked, rfl⟩
    | none =>
      have hentry : VoteEntry env req p (withCredential (markedEntry req p env.now)
          (env.backend (executedRequest env req p execID)).resp env.now) :=
        .executed huuid hreply
      rw [Prog.runPerforms_bind, Prog.run_bind, run_timeNow]
      rw [Prog.runPerforms_bind, Prog.run_bind]
      refine ⟨⟨⟨.uuid, trivial⟩, ⟨.route h hmet huuid, trivial⟩, ⟨.now, trivial⟩,
        storePendingRequest_approving h hentry, ?_⟩, ?_, ?_⟩
      · split <;> trivial
      · split <;> exact hentry
      · split <;> rfl

theorem finishExecution_approving :
    (finishExecution id rule (markedEntry req p env.now)).RunPerforms (exec env)
      (Approving core env store req id) w := by
  refine runPerforms_getPendingRequest (.get _) fun latest _ => ?_
  cases latest with
  | error e => trivial
  | ok latest =>
    simp only
    split
    · trivial
    obtain ⟨hperforms, hentry, hstatus⟩ := executeApprovedRequest_approving h hmet w.tick
    refine Prog.runPerforms_bind.mpr ⟨hperforms, ?_⟩
    generalize (executeApprovedRequest (markedEntry req p env.now)).run (exec env) w.tick =
      result at hentry hstatus ⊢
    obtain ⟨⟨err, executed⟩, w'⟩ := result
    cases err with
    | none => trivial
    | some e =>
      refine Prog.runPerforms_bind.mpr ⟨?_, trivial⟩
      exact storePendingRequest_approving h (.rolledBack hentry hstatus)

end

theorem recordVote_approving (h : Admitted core env.now store req id p rule) (w : World) :
    (recordVote req id rule p).RunPerforms (exec env) (Approving core env store req id) w := by
  refine Prog.runPerforms_bind.mpr ⟨⟨.now, trivial⟩, ?_⟩
  rw [run_timeNow]
  split
  · rename_i hmet
    refine Prog.runPerforms_bind.mpr ⟨storePendingRequest_approving h .marked, ?_⟩
    split
    · trivial
    · exact finishExecution_approving h hmet _
  · refine Prog.runPerforms_bind.mpr ⟨storePendingRequest_approving h .cast, ?_⟩
    split <;> trivial

theorem handleApprovalApprove_approving (core : Core) (env : Env) (req : Request) (id : String)
    (w : World) :
    (handleApprovalApprove core req id).RunPerforms (exec env)
      (Approving core env w.store req id) w := by
  refine runPerforms_getPendingRequest (.get _) fun found hfound => ?_
  split
  · trivial
  · trivial
  rename_i p
  have hentry := hfound p rfl
  unfold approvePending
  split
  · trivial
  rename_i hstatus
  have hpending := not_not.mp hstatus
  refine Prog.runPerforms_bind.mpr ⟨⟨.now, trivial⟩, ?_⟩
  rw [run_timeNow]
  split
  · rename_i hlate
    exact Prog.runPerforms_bind.mpr ⟨⟨.expire hentry hpending hlate, trivial⟩, trivial⟩
  rename_i hlate
  have hlive := Int.not_lt.mp hlate
  refine runPerforms_getApprovalRule (.get _) fun found hrule hnone => ?_
  split
  · trivial
  · refine Prog.runPerforms_bind.mpr ⟨⟨?_, trivial⟩, trivial⟩
    exact .orphan hentry hpending hlive (hnone rfl)
  rename_i rule
  unfold approveUnderRule
  split
  · trivial
  rename_i hauth
  split
  · trivial
  rename_i hown
  split
  · trivial
  rename_i hfirst
  refine recordVote_approving ⟨hentry, hpending, hlive, hrule rule rfl, ?_, ?_,
    by simpa using hfirst⟩ _
  · cases hroot : callerIsRoot core req with
    | true => exact .inl rfl
    | false => simpa [hroot] using hauth
  cases hroot : callerIsRoot core req with
  | true => exact .inl rfl
  | false =>
    cases hallowed : rule.allowSelfApproval with
    | true => exact .inr (.inl rfl)
    | false => simpa [hroot, hallowed] using hown

end VaultProofs.ApprovalEffects
