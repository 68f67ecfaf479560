import VaultProofs.ApprovalRuns

/-!
What a call writes under `pending/`, whether or not storage fails, and what an approve call
dispatches.
-/

namespace VaultProofs.EntryWrites

open JsonValues EffectPrograms RunHistories ApprovalEntries VaultEffects ApprovalInterceptor
open RequestRouting EffectFootprints ApprovalHandlers ApprovalExecution ApprovalEffects
open HandlerFootprints ListingFootprints ApprovalRuns

inductive Written (s : Step) (store : Store) : PendingRequest → Prop where
  | parked {bypass : Bool} {auth : Option (List String)} {req : Request} {rule : ApprovalRule}
      {id : String} (call : s.call = .request bypass auth req) (uuid : s.env.uuid = .ok id) :
      Written s store (parkedRequest req rule id s.env.now)
  | voted {req : Request} {id : String} {p r : PendingRequest} {rule : ApprovalRule}
      (call : s.call = .approve req id)
      (admitted : Admitted s.core s.env.now store req id p rule)
      (entry : VoteEntry s.env req p r) : Written s store r
  | denied {req : Request} {id : String} {p : PendingRequest} (call : s.call = .deny req id)
      (entry : storedPending store id = some p) : Written s store { p with status := .denied }
  | burnt {req : Request} {id : String} {p : PendingRequest} (call : s.call = .fetch req id)
      (entry : storedPending store id = some p) :
      Written s store { p with credentialData := none }

def writing (writes : PendingRequest → Prop) : Footprint where
  writes := writes
  routes _ := True
  leases := True

variable {id : String}

theorem allows_writing_of_approving {s : Step} {store : Store} {req : Request}
    (hcall : s.call = .approve req id) {op : VaultOp} (h : Approving s.core s.env store req id op) :
    (writing (Written s store)).Allows op := by
  cases h with
  | put hadmitted hentry hvalue =>
    intro _
    exact ⟨_, hvalue, rfl, .voted hcall hadmitted hentry⟩
  | _ => trivial

theorem Step.writes (s : Step) (w : World) :
    RunsWithin s.env (writing (Written s w.store)) (s.call.prog s.core) w := by
  refine Step.runs_of_admitted ?_ ?_ ?_
  · intro bypass auth req hcall
    exact ⟨fun _ => trivial, trivial, fun rule id huuid => .parked hcall huuid⟩
  · exact fun req id op hcall => allows_writing_of_approving hcall
  · exact fun req id p hp => ⟨fun hcall => .denied hcall hp, fun hcall => .burnt hcall hp⟩

theorem kept_or_written (s : Step) (w : World) {q : PendingRequest}
    (hq : storedPending (s.apply w).store id = some q) :
    storedPending w.store id = some q ∨
      ∃ r, Written s w.store r ∧ r.requestID = id ∧ q = r.normalize := by
  rcases run_outcome (Step.writes s w) id with hsame | hgone | ⟨r, hwritten, hid, hr⟩
  · exact .inl (hsame.symm.trans hq)
  · rw [Step.apply, hgone] at hq
    cases hq
  · rw [Step.apply, hr] at hq
    exact .inr ⟨r, hwritten, hid, (Option.some.inj hq).symm⟩

def Normalized (store : Store) : Prop :=
  ∀ id p, storedPending store id = some p → p.normalize = p

theorem normalized_finalWorld (steps : List Step) : Normalized (finalWorld steps).store := by
  refine final_induction (K := fun _ (w : World) => Normalized w.store) ?_ ?_ steps
  · intro id p hp
    cases hp
  intro steps s ih id q hq
  rcases kept_or_written s _ hq with hkept | ⟨r, -, -, rfl⟩
  · exact ih id q hkept
  · exact PendingRequest.normalize_normalize r

theorem parked_change (s : Step) {w : World} (hkeyed : Keyed w.store) (hnormal : Normalized w.store)
    {q : PendingRequest} (hq : storedPending (s.apply w).store id = some q) :
    (∃ p, storedPending w.store id = some p ∧ q.parked = p.parked) ∨
      ∃ bypass auth req rule, s.call = .request bypass auth req ∧ s.env.uuid = .ok id ∧
        q = (parkedRequest req rule id s.env.now).normalize := by
  rcases kept_or_written s w hq with hkept | ⟨r, hwritten, hid, rfl⟩
  · exact .inl ⟨q, hkept, rfl⟩
  -- The writing call was made for this ID, as entries are stored under their own IDs.
  have hsame : ∀ {id' p}, storedPending w.store id' = some p → r.parked = p.parked →
      ∃ p, storedPending w.store id = some p ∧ r.normalize.parked = p.parked := by
    intro id' p hp hr
    obtain rfl : id' = id := by
      rw [← hid, (sameRequest_of_parked hr).requestID, hkeyed id' p hp]
    refine ⟨p, hp, ?_⟩
    rw [PendingRequest.parked_normalize, hr, ← PendingRequest.parked_normalize, hnormal _ p hp]
  cases hwritten with
  | parked hcall huuid =>
    obtain rfl := hid
    exact .inr ⟨_, _, _, _, hcall, huuid, rfl⟩
  | voted hcall hadmitted hentry => exact .inl (hsame hadmitted.entry hentry.parked_eq)
  | denied hcall hentry | burnt hcall hentry => exact .inl (hsame hentry rfl)

variable {α : Type} {env : Env}

theorem routed_exec_grows (env : Env) (op : VaultOp) (w : World) :
    w.routed <+: (exec env op w).2.routed := by
  by_cases hop : Silent op
  · rewrite [exec_routed env hop w]
    exact List.prefix_rfl
  · cases op with
    | doRouting req => exact List.prefix_append _ _
    | _ => exact (hop trivial).elim

theorem routed_run_grows (env : Env) (p : VaultProg α) (w : World) :
    w.routed <+: (p.run (exec env) w).2.routed := by
  induction p generalizing w with
  | ret value => exact List.prefix_rfl
  | call op next ih => exact (routed_exec_grows env op w).trans (ih _ _)

variable {w : World}

theorem silent_of_routed_eq {p : VaultProg α} (h : (p.run (exec env) w).2.routed = w.routed) :
    p.RunPerforms (exec env) Silent w := by
  induction p generalizing w with
  | ret value => trivial
  | call op next ih =>
    have hfirst := routed_exec_grows env op w
    have hrest := routed_run_grows env (next (exec env op w).1) (exec env op w).2
    have hsame : (exec env op w).2.routed = w.routed :=
      (hfirst.eq_of_length_le (h ▸ hrest.length_le)).symm
    refine ⟨?_, ih _ (h.trans hsame.symm)⟩
    cases op with
    | doRouting req =>
      have hlength := congrArg List.length hsame
      simp [exec] at hlength
    | _ => trivial

def Dispatches (s : Step) (w : World) (req : Request) (reply : Reply) : Prop :=
  ∃ dispatched, (s.apply w).routed = w.routed ++ dispatched ∧ (req, reply) ∈ dispatched

variable {s : Step}

theorem routed_of_approve {req : Request} (hcall : s.call = .approve req id) (w : World) :
    ∃ dispatched, (s.apply w).routed = w.routed ++ dispatched ∧
      ∀ routed ∈ dispatched, ∃ p rule execID, Admitted s.core s.env.now w.store req id p rule ∧
        s.env.uuid = .ok execID ∧ routed.1 = executedRequest s.env req p execID ∧
        routed.2 = s.env.backend routed.1 := by
  rw [Step.apply, hcall]
  refine Prog.RunPerforms.run_keeps (K := fun w' => ∃ dispatched,
    w'.routed = w.routed ++ dispatched ∧ ∀ routed ∈ dispatched, ∃ p rule execID,
      Admitted s.core s.env.now w.store req id p rule ∧ s.env.uuid = .ok execID ∧
        routed.1 = executedRequest s.env req p execID ∧ routed.2 = s.env.backend routed.1) ?_
    (handleApprovalApprove_approving s.core s.env req id w)
    ⟨[], (List.append_nil _).symm, List.forall_mem_nil _⟩
  rintro op w' hop ⟨dispatched, hrouted, hall⟩
  cases hop with
  | @route p rule execID hadmitted _ huuid =>
    let executed := executedRequest s.env req p execID
    refine ⟨dispatched ++ [(executed, s.env.backend executed)], ?_, ?_⟩
    · simp only [exec, hrouted, List.append_assoc, executed]
    intro routed hmem
    rcases List.mem_append.mp hmem with hmem | hmem
    · exact hall routed hmem
    · rw [List.mem_singleton.mp hmem]
      exact ⟨p, rule, execID, hadmitted, huuid, rfl, rfl⟩
  | _ => exact ⟨dispatched, (exec_routed s.env (by trivial) w').trans hrouted, hall⟩

def muted (s : Step) : Step :=
  { s with env := { s.env with backend := fun _ => failedReply .internal } }

theorem apply_muted (h : (s.apply w).routed = w.routed) : (muted s).apply w = s.apply w := by
  have hsilent := silent_of_routed_eq (p := s.call.prog s.core) h
  have hexec : ∀ op w', Silent op → exec s.env op w' = exec (muted s).env op w' := by
    intro op w' hop
    cases op with
    | doRouting req => exact hop.elim
    | _ => rfl
  exact congrArg Prod.snd (Prog.RunPerforms.run_congr hexec hsilent).symm

theorem dispatches_of_written {req : Request} (hcall : s.call = .approve req id)
    {p : PendingRequest} {execID : String} (hp : storedPending w.store id = some p)
    (huuid : s.env.uuid = .ok execID) (hrouted : (s.apply w).routed ≠ w.routed) :
    Dispatches s w (executedRequest s.env req p execID)
      (s.env.backend (executedRequest s.env req p execID)) := by
  obtain ⟨dispatched, happend, hall⟩ := routed_of_approve hcall w
  obtain ⟨routed, hmem⟩ : ∃ routed, routed ∈ dispatched := by
    apply List.exists_mem_of_ne_nil
    rintro rfl
    exact hrouted (happend.trans (List.append_nil _))
  obtain ⟨p', _, execID', hadmitted, huuid', hrequest, hreply⟩ := hall routed hmem
  obtain rfl : p' = p := Option.some.inj (hadmitted.entry.symm.trans hp)
  obtain rfl : execID' = execID := Except.ok.inj (huuid'.symm.trans huuid)
  refine ⟨dispatched, happend, ?_⟩
  rw [← hrequest, ← hreply]
  exact hmem

theorem credential_of_written (hkeyed : Keyed w.store) (hnormal : Normalized w.store)
    {r : PendingRequest} (hwritten : Written s w.store r) {data : GoMap}
    (hdata : storedCredential r.credentialData = some data) :
    (∃ p, storedPending w.store r.requestID = some p ∧ p.credentialData = some data ∧
        p.approvedAt = r.approvedAt) ∨
      ∃ voter p execID, s.call = .approve voter r.requestID ∧
        storedPending w.store r.requestID = some p ∧ s.env.uuid = .ok execID ∧
        (s.env.backend (executedRequest s.env voter p execID)).err = none ∧
        r.approvedAt = s.env.now ∧ storedCredential (some (responseData
          (s.env.backend (executedRequest s.env voter p execID)).resp)) = some data := by
  have hstored : ∀ {id p}, storedPending w.store id = some p →
      storedCredential p.credentialData = p.credentialData :=
    fun hp => congrArg PendingRequest.credentialData (hnormal _ _ hp)
  cases hwritten with
  | parked _ _ | burnt _ _ => cases hdata
  | @voted voter id p _ rule hcall hadmitted hentry =>
    have hid : r.requestID = id :=
      (sameRequest_of_parked hentry.parked_eq).requestID.trans (hkeyed id p hadmitted.entry)
    rw [hid]
    rcases hentry.credential with ⟨hcredential, happroved⟩ |
      ⟨execID, huuid, herr, hcredential, happroved⟩
    · refine .inl ⟨p, hadmitted.entry, ?_, happroved.symm⟩
      rwa [hcredential, hstored hadmitted.entry] at hdata
    · exact .inr ⟨voter, p, execID, hcall, hadmitted.entry, huuid, herr, happroved,
        hcredential ▸ hdata⟩
  | @denied req id p hcall hentry =>
    refine .inl ⟨p, ?_, (hstored hentry).symm.trans hdata, rfl⟩
    exact (congrArg (storedPending w.store) (hkeyed id p hentry)).trans hentry

/-- A stored credential was there before the call, or the call has dispatched the request and it is
the answer. -/
theorem credential_change (s : Step) (hkeyed : Keyed w.store) (hnormal : Normalized w.store)
    {q : PendingRequest} {data : GoMap} (hq : storedPending (s.apply w).store id = some q)
    (hdata : q.credentialData = some data) :
    (∃ p, storedPending w.store id = some p ∧ p.credentialData = some data ∧
        p.approvedAt = q.approvedAt) ∨
      ∃ voter executed, s.call = .approve voter id ∧
        Dispatches s w executed (s.env.backend executed) ∧
        (s.env.backend executed).err = none ∧ q.approvedAt = s.env.now ∧
        storedCredential (some (responseData (s.env.backend executed).resp)) = some data := by
  by_cases hrouted : (s.apply w).routed = w.routed
  · -- With mute backends the call would have done the same, and had no answer to store.
    rw [← apply_muted hrouted] at hq
    rcases kept_or_written (muted s) w hq with hkept | ⟨r, hwritten, rfl, rfl⟩
    · exact .inl ⟨q, hkept, hdata, rfl⟩
    rcases credential_of_written hkeyed hnormal hwritten hdata with hbefore |
      ⟨_, _, _, _, _, _, herr, _⟩
    · exact .inl hbefore
    · cases herr
  rcases kept_or_written s w hq with hkept | ⟨r, hwritten, rfl, rfl⟩
  · exact .inl ⟨q, hkept, hdata, rfl⟩
  rcases credential_of_written hkeyed hnormal hwritten hdata with hbefore |
    ⟨voter, p, execID, hcall, hp, huuid, herr, happroved, hstored⟩
  · exact .inl hbefore
  · exact .inr ⟨voter, _, hcall, dispatches_of_written hcall hp huuid hrouted, herr,
      happroved, hstored⟩

end VaultProofs.EntryWrites
