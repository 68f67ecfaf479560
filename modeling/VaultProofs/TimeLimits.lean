import VaultProofs.EntryWrites

/-!
The time limits along a run, whatever fails in storage.
-/

namespace VaultProofs.TimeLimits

open GoStrings JsonValues EffectPrograms RunHistories ApprovalEntries VaultEffects
open ApprovalInterceptor ApprovalHandlers ApprovalEffects ApprovalRuns EntryWrites

def ParkedAt (steps : List Step) (id : String) (p : PendingRequest) (time : Time) : Prop :=
  ∃ before s, Occurs before s steps ∧ s.env.now = time ∧ s.env.uuid = .ok id ∧
    ∃ bypass auth req rule, s.call = .request bypass auth req ∧
      p.parked = (parkedRequest req rule id time).normalize

/-- An approve call of the run on the ID has dispatched a request at the time, and the
data is what storage keeps of the answer. -/
def ProducedAt (steps : List Step) (id : String) (data : GoMap) (time : Time) : Prop :=
  ∃ before s voter executed, Occurs before s steps ∧ s.call = .approve voter id ∧
    s.env.now = time ∧
    Dispatches s (finalWorld before) executed (s.env.backend executed) ∧
    (s.env.backend executed).err = none ∧
    storedCredential (some (responseData (s.env.backend executed).resp)) = some data

def HandsOut (reply : Reply) (id : String) (p : PendingRequest) : Prop :=
  reply = dataReply (credentialResponse id p)

structure Punctual (steps : List Step) : Prop where
  votes : ∀ before s, Occurs before s steps → ∀ id p q,
    storedPending (finalWorld before).store id = some p →
    storedPending (s.apply (finalWorld before)).store id = some q →
    p.approvals.length < q.approvals.length →
    ∃ time, ParkedAt before id p time ∧ s.env.now ≤ time + approvalRequestTTL
  executions : ∀ before s, Occurs before s steps → ∀ req id, s.call = .approve req id →
    (s.apply (finalWorld before)).routed ≠ (finalWorld before).routed →
    ∃ p time, storedPending (finalWorld before).store id = some p ∧
      ParkedAt before id p time ∧ s.env.now ≤ time + approvalRequestTTL
  fetches : ∀ before s, Occurs before s steps → ∀ req id p, s.call = .fetch req id →
    HandsOut ((s.call.prog s.core).run (exec s.env) (finalWorld before)).1 id p →
    ∃ stored data time, storedPending (finalWorld before).store id = some stored ∧
      stored.credentialData = some data ∧
      HandsOut ((s.call.prog s.core).run (exec s.env) (finalWorld before)).1 id stored ∧
      ProducedAt before id data time ∧ s.env.now ≤ time + approvalCredentialTTL

variable {steps : List Step} {id : String}

variable {time : Time}

theorem ParkedAt.concat {p : PendingRequest} (h : ParkedAt steps id p time) (s : Step) :
    ParkedAt (steps ++ [s]) id p time := by
  obtain ⟨before, s', hoccurs, h⟩ := h
  exact ⟨before, s', hoccurs.concat s, h⟩

theorem ProducedAt.concat {data : GoMap} (h : ProducedAt steps id data time) (s : Step) :
    ProducedAt (steps ++ [s]) id data time := by
  obtain ⟨before, s', voter, executed, hoccurs, h⟩ := h
  exact ⟨before, s', voter, executed, hoccurs.concat s, h⟩

theorem ParkedAt.expiresAt {p : PendingRequest} (h : ParkedAt steps id p time) :
    p.expiresAt = time + approvalRequestTTL := by
  obtain ⟨_, _, _, _, _, _, _, _, _, _, hparked⟩ := h
  exact congrArg PendingRequest.expiresAt hparked

theorem parkedAt_finalWorld (steps : List Step) (id : String) (p : PendingRequest)
    (hp : storedPending (finalWorld steps).store id = some p) :
    ∃ time, ParkedAt steps id p time := by
  refine final_induction (K := fun steps (w : World) => ∀ id p,
    storedPending w.store id = some p → ∃ time, ParkedAt steps id p time) ?_ ?_ steps id p hp
  · intro id p hp
    cases hp
  intro steps s ih id q hq
  rcases parked_change s (keyed_finalWorld steps) (normalized_finalWorld steps) hq with
    ⟨p, hp, hsame⟩ | ⟨bypass, auth, req, rule, hcall, huuid, hentry⟩
  · obtain ⟨time, hparked⟩ := ih id p hp
    obtain ⟨before, s', hoccurs, htime, huuid, _, _, _, _, hcall, heq⟩ := hparked.concat s
    exact ⟨time, before, s', hoccurs, htime, huuid, _, _, _, _, hcall, hsame.trans heq⟩
  refine ⟨s.env.now, steps, s, occurs_concat_self steps s, rfl, huuid, bypass, auth, req,
    rule, hcall, ?_⟩
  rw [hentry]
  rfl

/-- The invariant behind the ninety minutes: a stored credential was produced by an
execution at the time the entry says. -/
theorem producedAt_finalWorld (steps : List Step) (id : String) (p : PendingRequest)
    (data : GoMap) (hp : storedPending (finalWorld steps).store id = some p)
    (hdata : p.credentialData = some data) : ProducedAt steps id data p.approvedAt := by
  refine final_induction (K := fun steps (w : World) => ∀ id p data,
    storedPending w.store id = some p → p.credentialData = some data →
      ProducedAt steps id data p.approvedAt) ?_ ?_ steps id p data hp hdata
  · intro id p data hp
    cases hp
  intro steps s ih id q data hq hdata
  rcases credential_change s (keyed_finalWorld steps) (normalized_finalWorld steps) hq hdata
    with ⟨p, hp, hpdata, happroved⟩ | ⟨voter, executed, hcall, hdispatches, herr, happroved, h⟩
  · rw [← happroved]
    exact (ih id p data hp hpdata).concat s
  · rw [happroved]
    exact ⟨steps, s, voter, executed, occurs_concat_self steps s, hcall, rfl, hdispatches,
      herr, h⟩

variable {core : Core} {env : Env} {req : Request}

theorem not_handsOut {reply : Reply} {p : PendingRequest}
    (h : ∀ resp, reply.resp = some resp → ∀ entry, resp.data.head? = some entry →
      entry.1 ≠ ofString "status" ∨ entry.2 ≠ textValue "approved") :
    ¬ HandsOut reply id p := by
  intro hreply
  cases hreply
  rcases h _ rfl _ rfl with hkey | hvalue
  · exact hkey rfl
  · exact hvalue rfl

theorem not_handsOut_failed (e : GoError) (p : PendingRequest) :
    ¬ HandsOut (failedReply e) id p := not_handsOut nofun

theorem not_handsOut_error (text : GoString) (p : PendingRequest) :
    ¬ HandsOut (errorReply text) id p := by
  refine not_handsOut fun resp hresp entry hentry => .inl ?_
  cases hresp
  cases hentry
  show ofString "error" ≠ ofString "status"
  decide

theorem not_handsOut_statusCode (inner : GoMap) (code : Int) (p : PendingRequest) :
    ¬ HandsOut (respondWithStatusCode inner req code) id p := by
  refine not_handsOut fun resp hresp entry hentry => .inl ?_
  cases hresp
  cases hentry
  decide

theorem not_handsOut_status {status : String} (hstatus : ofString status ≠ ofString "approved")
    (rest : GoMap) (p : PendingRequest) :
    ¬ HandsOut (dataReply ((ofString "status", textValue status) :: rest)) id p := by
  refine not_handsOut fun resp hresp entry hentry => .inr ?_
  cases hresp
  cases hentry
  intro h
  exact hstatus (GoValue.str.inj h)

variable {w : World}

theorem burnCredential_handsOut {p stored : PendingRequest}
    (h : HandsOut ((burnCredential core id stored).run (exec env) w).1 id p) :
    HandsOut ((burnCredential core id stored).run (exec env) w).1 id stored := by
  unfold burnCredential at h ⊢
  rw [Prog.run_bind, Prog.run_bind] at h ⊢
  generalize (storageDelete (pendingKey id)).run (exec env) _ = deleted at h ⊢
  obtain ⟨answer, w'⟩ := deleted
  cases answer with
  | error e => exact (not_handsOut_failed e p h).elim
  | ok done => rfl

theorem fetchPending_handsOut {p stored : PendingRequest}
    (h : HandsOut ((fetchPending core req id stored).run (exec env) w).1 id p) :
    stored.status = .approved ∧ stored.credentialData.isSome = true ∧
      ¬ (stored.approvedAt ≠ 0 ∧ approvalCredentialTTL < env.now - stored.approvedAt) ∧
      HandsOut ((fetchPending core req id stored).run (exec env) w).1 id stored := by
  unfold fetchPending at h ⊢
  cases hstatus : stored.status with
  | pending =>
    simp only [hstatus] at h
    rw [Prog.run_bind, run_timeNow] at h
    split at h
    · exact (not_handsOut_status (by decide) _ p h).elim
    · exact (not_handsOut_statusCode _ _ p h).elim
  | denied =>
    simp only [hstatus] at h
    exact (not_handsOut_status (by decide) _ p h).elim
  | unknown =>
    simp only [hstatus] at h
    exact (not_handsOut_error _ p h).elim
  | approved =>
    simp only [hstatus] at h ⊢
    by_cases hnone : stored.credentialData.isNone = true
    · rw [if_pos hnone] at h
      exact (not_handsOut_error _ p h).elim
    rw [if_neg hnone, Prog.run_bind, run_timeNow] at h ⊢
    by_cases hlate : stored.approvedAt ≠ 0 ∧
        env.now - stored.approvedAt > approvalCredentialTTL
    · rw [if_pos hlate] at h
      exact (not_handsOut_error _ p h).elim
    rw [if_neg hlate] at h ⊢
    have hsome : stored.credentialData.isSome = true := by
      rwa [← Option.not_isNone, Bool.not_eq_true', ← Bool.not_eq_true]
    exact ⟨trivial, hsome, hlate, burnCredential_handsOut h⟩

theorem fetch_handsOut {p : PendingRequest}
    (h : HandsOut ((handleApprovalFetch core req id).run (exec env) w).1 id p) :
    ∃ stored, storedPending w.store id = some stored ∧ stored.status = .approved ∧
      stored.credentialData.isSome = true ∧
      ¬ (stored.approvedAt ≠ 0 ∧ approvalCredentialTTL < env.now - stored.approvedAt) ∧
      HandsOut ((handleApprovalFetch core req id).run (exec env) w).1 id stored := by
  unfold handleApprovalFetch at h ⊢
  rw [Prog.run_bind, run_getPendingRequest, exec_storageGet_snd] at h ⊢
  cases hfound : decodeEntry PendingRequest.decodeJSON
      (exec env (.storageGet (pendingKey id)) w).1 with
  | error e =>
    simp only [hfound] at h
    exact (not_handsOut_failed e p h).elim
  | ok found =>
    cases found with
    | none =>
      simp only [hfound] at h
      exact (not_handsOut_statusCode _ _ p h).elim
    | some stored =>
      simp only [hfound] at h ⊢
      by_cases hmay : mayFetch core req stored = true
      · rw [if_pos hmay] at h ⊢
        exact ⟨stored, storedPending_of_read hfound, fetchPending_handsOut h⟩
      · rw [if_neg hmay] at h
        exact (not_handsOut_failed _ p h).elim

theorem live_of_vote (s : Step) {w : World} (hkeyed : Keyed w.store) {id : String}
    {p q : PendingRequest} (hp : storedPending w.store id = some p)
    (hq : storedPending (s.apply w).store id = some q)
    (hvotes : p.approvals.length < q.approvals.length) : s.env.now ≤ p.expiresAt := by
  cases voteChange s hkeyed hq with
  | kept hentry _ hsame =>
    rw [hp] at hentry
    cases hentry
    rw [hsame] at hvotes
    exact (Nat.lt_irrefl _ hvotes).elim
  | parked hnone =>
    rw [hnone] at hvotes
    exact (Nat.not_lt_zero _ hvotes).elim
  | voted _ hadmitted _ _ =>
    rw [Option.some.inj (hp.symm.trans hadmitted.entry)]
    exact hadmitted.live

/-- Every run keeps the time limits, whatever storage, backends and clock do, unless the clock shows
the zero time. -/
theorem punctual (steps : List Step) (hclock : ∀ s ∈ steps, s.env.now ≠ 0) : Punctual steps where
  votes before s _ id p q hp hq hvotes := by
    obtain ⟨time, hparked⟩ := parkedAt_finalWorld before id p hp
    refine ⟨time, hparked, ?_⟩
    rw [← hparked.expiresAt]
    exact live_of_vote s (keyed_finalWorld before) hp hq hvotes
  executions before s _ req id hcall hrouted := by
    obtain ⟨dispatched, happend, hall⟩ := routed_of_approve hcall (finalWorld before)
    cases dispatched with
    | nil => exact (hrouted (happend.trans (List.append_nil _))).elim
    | cons routed rest =>
      obtain ⟨p, rule, execID, hadmitted, -⟩ := hall routed (.head _)
      obtain ⟨time, hparked⟩ := parkedAt_finalWorld before id p hadmitted.entry
      exact ⟨p, time, hadmitted.entry, hparked, hparked.expiresAt ▸ hadmitted.live⟩
  fetches before s hoccurs req id p hcall hreply := by
    rw [hcall] at hreply ⊢
    obtain ⟨stored, hstored, -, hsome, hwindow, hhands⟩ := fetch_handsOut hreply
    obtain ⟨data, hdata⟩ := Option.isSome_iff_exists.mp hsome
    have hproduced := producedAt_finalWorld before id stored data hstored hdata
    refine ⟨stored, data, stored.approvedAt, hstored, hdata, hhands, hproduced, ?_⟩
    -- The execution was a step of the run, so its time is not the zero time.
    have hne : stored.approvedAt ≠ 0 := by
      obtain ⟨before', s', _, _, hoccurs', _, htime, _⟩ := hproduced
      obtain ⟨later, rfl⟩ := hoccurs
      rw [← htime]
      exact hclock s' (List.mem_append_left _ hoccurs'.mem)
    have hle : s.env.now - stored.approvedAt ≤ approvalCredentialTTL :=
      Int.not_lt.mp fun hlate => hwindow ⟨hne, hlate⟩
    exact Int.le_add_of_sub_left_le hle

theorem punctual_sampleRun :
    (finalWorld [ruleStep, requestStep sampleRequest, approveStep, fetchStep]).routed.length = 1 ∧
      Punctual [ruleStep, requestStep sampleRequest, approveStep, fetchStep] := by
  refine ⟨by decide, punctual _ ?_⟩
  intro s hs
  simp only [List.mem_cons, List.not_mem_nil, or_false] at hs
  rcases hs with rfl | rfl | rfl | rfl <;> decide

end VaultProofs.TimeLimits
