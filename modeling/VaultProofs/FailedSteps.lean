import VaultProofs.CredentialDelivery
import VaultProofs.TimeLimits

/-!
One failing step of an approve call that meets the threshold, or of a fetch that hands out a
credential, and what is left of the entry.
-/

namespace VaultProofs.FailedSteps

open GoStrings JsonValues EffectPrograms ApprovalEntries VaultEffects ApprovalInterceptor
open ApprovalHandlers ApprovalExecution CredentialDelivery TimeLimits

variable {core : Core} {env : Env} {w w' w'' : World} {req : Request} {id : String}
  {p : PendingRequest} {rule : ApprovalRule}

/-! Approve -/

inductive ExecutionStep where
  | generateUUID
  | doRouting
  | storePendingRequest

/-- The step is the only one of the execution of `p` that fails. The call has used storage four
times when it writes. -/
def FailsAlone (env : Env) (w : World) (req : Request) (p : PendingRequest) :
    ExecutionStep → Prop
  | .generateUUID => env.Reliable ∧ ∃ e, env.uuid = .error e
  | .doRouting => env.Reliable ∧ ∃ execID e, env.uuid = .ok execID ∧
      (env.backend (executedRequest env req p execID)).err = some e
  | .storePendingRequest => (∀ n op, env.fails n op = true ↔ n = w.storageOps + 4) ∧
      ∃ execID, env.uuid = .ok execID ∧
        (env.backend (executedRequest env req p execID)).err = none ∧
        (withCredential p (env.backend (executedRequest env req p execID)).resp
          env.now).marshalJSON ≠ none

def RolledBack (core : Core) (env : Env) (w : World) (req : Request) (id : String)
    (p : PendingRequest) : Prop :=
  ((handleApprovalApprove core req id).run (exec env) w).1.err.isSome = true →
    storedPending ((handleApprovalApprove core req id).run (exec env) w).2.store id = some p

def Records (p : PendingRequest) (resp : Option Response) (now : Time) : Prop :=
  ¬ (responseData resp = [] ∧ p.approvedAt = now ∧
    (withCredential p resp now).secretTTL = p.secretTTL ∧
    (withCredential p resp now).secretMaxTTL = p.secretMaxTTL)

/-- The failing step is the write of an answer that the entry has not seen before. -/
def Lossy (env : Env) (req : Request) (p : PendingRequest) : ExecutionStep → Prop
  | .storePendingRequest => p.credentialData = none ∧ ∃ execID, env.uuid = .ok execID ∧
      Records p (env.backend (executedRequest env req p execID)).resp env.now
  | _ => False

theorem FailsAlone.healthyAt {step : ExecutionStep} (h : FailsAlone env w req p step) {n : Nat}
    (hn : n ≠ 4) : env.HealthyAt (w.storageOps + n) := by
  intro op
  cases step with
  | generateUUID | doRouting => exact h.1 _ op
  | storePendingRequest => simpa [hn] using h.1 (w.storageOps + n) op

theorem rolledBack_markedEntry (hstatus : p.status = .pending) (now : Time) :
    rolledBack (markedEntry req p now) = p := by
  simp [rolledBack, markedEntry, castVote, ← hstatus]

theorem rolledBack_withCredential (req : Request) (hstatus : p.status = .pending)
    (resp : Option Response) (now : Time) :
    rolledBack (withCredential (markedEntry req p now) resp now) = withCredential p resp now := by
  simp [rolledBack, withCredential, markedEntry, castVote, ← hstatus]

theorem normalize_withCredential_iff (hnormal : p.normalize = p) (hnone : p.credentialData = none)
    (resp : Option Response) (now : Time) :
    (withCredential p resp now).normalize = p ↔ ¬ Records p resp now := by
  have hdata : storedCredential (some (responseData resp)) = none ↔ responseData resp = [] := by
    cases responseData resp <;> simp [storedCredential]
  rw [Records, not_not, ← hdata]
  cases p
  simp only [PendingRequest.normalize, PendingRequest.mk.injEq] at hnormal hnone ⊢
  simp only [withCredential, hnormal, hnone]
  tauto

theorem rolledBack_of_failed {marked executed : PendingRequest} {e : GoError}
    (hrun : (handleApprovalApprove core req id).run (exec env) w =
      (executeOrRollBack id rule marked).run (exec env) w')
    (hexecute : (executeApprovedRequest marked).run (exec env) w' = ((some e, executed), w''))
    (hn : env.HealthyAt w''.storageOps) (hvalue : (rolledBack executed).marshalJSON ≠ none)
    (hid : executed.requestID = id) :
    RolledBack core env w req id p ↔ (rolledBack executed).normalize = p := by
  obtain ⟨value, hvalue⟩ := Option.ne_none_iff_exists'.mp hvalue
  have hstored := storedPending_put hvalue w'' hid
  rw [RolledBack, hrun, run_executeOrRollBack_failed hexecute hn hvalue]
  simp only [failedReply, Option.isSome_some, forall_const]
  exact (Iff.of_eq (congrArg (· = some p) hstored)).trans Option.some_inj

theorem run_storePendingRequest_unstored {r : PendingRequest} (hvalue : r.marshalJSON ≠ none)
    (hfails : ∀ op, env.fails w.storageOps op = true) :
    (storePendingRequest r).run (exec env) w = (.error storageFailed, w.tick) := by
  obtain ⟨value, hvalue⟩ := Option.ne_none_iff_exists'.mp hvalue
  rw [storePendingRequest, hvalue]
  exact if_pos (hfails _)

theorem run_executeApprovedRequest_unstored {marked : PendingRequest} {execID : String}
    {reply : Reply} (huuid : env.uuid = .ok execID)
    (hreply : env.backend (reconstructedRequest marked execID) = reply) (herr : reply.err = none)
    (hvalue : (withCredential marked reply.resp env.now).marshalJSON ≠ none)
    (hfails : ∀ op, env.fails w.storageOps op = true) :
    (executeApprovedRequest marked).run (exec env) w =
      ((some storageFailed, withCredential marked reply.resp env.now),
        (w.route (reconstructedRequest marked execID) reply).tick) := by
  have hwrite := run_storePendingRequest_unstored
    (w := w.route (reconstructedRequest marked execID) reply) hvalue hfails
  simp only [executeApprovedRequest, Prog.run_bind, run_generateUUID, huuid, run_doRouting, hreply,
    herr, run_timeNow, hwrite, Prog.pure_eq_ret, Prog.run_ret]

/-- An approve call with one failing step is taken back iff the step is not the write of an answer
that leaves a trace. -/
theorem rolledBack_iff (core : Core) (env : Env) (w : World) (req : Request) (id : String)
    (p : PendingRequest) (rule : ApprovalRule) (step : ExecutionStep) (hid : p.requestID = id)
    (hnormal : p.normalize = p) (h : Admitted core env.now w.store req id p rule)
    (hmet : thresholdMet rule (castVote req p env.now) = true)
    (hfails : FailsAlone env w req p step) :
    RolledBack core env w req id p ↔ ¬ Lossy env req p step := by
  obtain ⟨w', hmarked, hops, -, -, hrun⟩ :=
    h.run_approve hid hmet fun n hn => hfails.healthyAt (by omega)
  have hthird : env.HealthyAt w'.storageOps := hops ▸ hfails.healthyAt (by decide)
  by_cases hunread : p.credentialData = none
  swap
  · have hlatest : ((some (markedEntry req p env.now).normalize).bind
        PendingRequest.credentialData).isSome = true := by
      have hstored : (markedEntry req p env.now).normalize.credentialData = p.credentialData :=
        show p.normalize.credentialData = _ from congrArg PendingRequest.credentialData hnormal
      rw [Option.bind_some, hstored]
      exact Option.isSome_iff_ne_none.mpr hunread
    refine iff_of_true ?_ ?_
    · rw [RolledBack, hrun]
      simp only [finishExecution, Prog.run_bind, run_getPendingRequest_at hthird hmarked, hlatest,
        if_true]
      intro hfailed
      cases hfailed
    · cases step <;> simp [Lossy, hunread]
  rw [run_finishExecution hthird hmarked hunread] at hrun
  have hmarkable : (rolledBack (markedEntry req p env.now)).marshalJSON ≠ none := by
    obtain ⟨value, hvalue⟩ := exists_marshalJSON h.entry rfl (.inl rfl)
    rw [rolledBack_markedEntry h.status, hvalue]
    exact Option.some_ne_none _
  cases step with
  | generateUUID =>
    obtain ⟨hreliable, e, huuid⟩ := hfails
    have hexecute : (executeApprovedRequest (markedEntry req p env.now)).run (exec env) w'.tick =
        ((some (.wrapped "approval: failed to generate execution ID" e),
          markedEntry req p env.now), w'.tick) := by
      simp only [executeApprovedRequest, Prog.run_bind, run_generateUUID, huuid, Prog.pure_eq_ret,
        Prog.run_ret]
    rw [rolledBack_of_failed hrun hexecute (hreliable _) hmarkable hid,
      rolledBack_markedEntry h.status]
    exact iff_of_true hnormal not_false
  | doRouting =>
    obtain ⟨hreliable, execID, e, huuid, herr⟩ := hfails
    have hexecute := run_executeApprovedRequest_refused huuid rfl herr w'.tick
    rw [rolledBack_of_failed hrun hexecute (hreliable _) hmarkable hid,
      rolledBack_markedEntry h.status]
    exact iff_of_true hnormal not_false
  | storePendingRequest =>
    have hlast : env.HealthyAt (w.storageOps + 5) := hfails.healthyAt (by decide)
    obtain ⟨hwrite, execID, huuid, herr, hvalue⟩ := hfails
    rw [← rolledBack_withCredential req h.status] at hvalue
    have hexecute := run_executeApprovedRequest_unstored (w := w'.tick) huuid rfl herr
      (fun hnone => hvalue ((marshalJSON_rolledBack_eq_none_iff _).mpr hnone))
      fun op => (hwrite _ op).mpr (congrArg (· + 1) hops)
    rw [rolledBack_of_failed hrun hexecute (by simpa [World.tick, World.route, hops] using hlast)
      hvalue hid, rolledBack_withCredential req h.status,
      normalize_withCredential_iff hnormal hunread]
    simp [Lossy, hunread, huuid, executedRequest]

def unreachableStorage : Env :=
  { Env.quiet 1 sampleBackend with fails := fun n _ => n == 4 }

/-- The password that nobody has seen stays in the entry, which is pending again. -/
theorem not_rolledBack_unreachableStorage :
    FailsAlone unreachableStorage (parkedWorld 1) sampleApprover sampleEntry.normalize
      .storePendingRequest ∧
    ¬ RolledBack sampleCore unreachableStorage (parkedWorld 1) sampleApprover "r1"
      sampleEntry.normalize := by
  refine ⟨⟨fun n op => ?_, "5d2b6e0c", rfl, rfl, by decide⟩, fun hrolled => ?_⟩
  · simp [unreachableStorage, parkedWorld]
  have happroved : (storedPending ((handleApprovalApprove sampleCore sampleApprover "r1").run
      (exec unreachableStorage) (parkedWorld 1)).2.store "r1").map PendingRequest.approvedAt =
      some 1 := by decide
  rw [hrolled (by decide)] at happroved
  cases happroved

theorem rolledBack_noEntropy :
    RolledBack sampleCore { Env.quiet 1 sampleBackend with uuid := .error .internal }
      (parkedWorld 1) sampleApprover "r1" sampleEntry.normalize := by
  have h := (ready_sample sampleBackend).toAdmitted
  exact (rolledBack_iff sampleCore { Env.quiet 1 sampleBackend with uuid := .error .internal }
    (parkedWorld 1) sampleApprover "r1" sampleEntry.normalize (sampleRule 1) .generateUUID rfl
    (PendingRequest.normalize_normalize _) h (by decide) ⟨fun _ _ => rfl, _, rfl⟩).mpr not_false

/-! Fetch -/

inductive FetchStep where
  | tombstone
  | delete
  | history

def FetchStep.number : FetchStep → Nat
  | .tombstone => 1
  | .delete => 2
  | .history => 3

/-- The call hands out the credential, or a later one of the requester within the window does. -/
def Retrievable (core : Core) (env : Env) (w : World) (req : Request) (id : String)
    (p : PendingRequest) : Prop :=
  HandsOut ((handleApprovalFetch core req id).run (exec env) w).1 id p ∨
    ∃ env' req', env'.Reliable ∧ mayFetch core req' p = true ∧ env.now ≤ env'.now ∧
      env'.now - p.approvedAt ≤ approvalCredentialTTL ∧
      HandsOut ((handleApprovalFetch core req' id).run (exec env')
        ((handleApprovalFetch core req id).run (exec env) w).2).1 id p

/-- A tombstone without credential makes every later call say that the credential has
been retrieved. -/
theorem not_retrievable_of_tombstone {e : GoError}
    (hfetch : (handleApprovalFetch core req id).run (exec env) w = (failedReply e, w'))
    (htombstone : storedPending w'.store id = some { p with credentialData := none }.normalize)
    (hstatus : p.status = .approved) : ¬ Retrievable core env w req id p := by
  rw [Retrievable, hfetch]
  rintro (hnow | ⟨env', req', hreliable, hmay, -, -, hlater⟩)
  · exact not_handsOut_failed _ _ hnow
  · rw [fetch_of_retrieved hreliable htombstone hmay hstatus rfl] at hlater
    exact not_handsOut_error _ _ hlater

theorem run_burnCredential_undeleted (hp : storedPending w.store id = some p)
    (hid : p.requestID = id) (hwrite : env.HealthyAt w.storageOps)
    (hdelete : ∀ op, env.fails (w.storageOps + 1) op = true) :
    ∃ w', (burnCredential core id p).run (exec env) w = (failedReply storageFailed, w') ∧
      storedPending w'.store id = some { p with credentialData := none }.normalize := by
  obtain ⟨value, hvalue⟩ :=
    exists_marshalJSON (r := { p with credentialData := none }) hp rfl (.inr rfl)
  have hfailed : (storageDelete (pendingKey id)).run (exec env)
      (w.put (pendingKey p.requestID) value) =
      (.error storageFailed, (w.put (pendingKey p.requestID) value).tick) := if_pos (hdelete _)
  refine ⟨(w.put (pendingKey p.requestID) value).tick, ?_, storedPending_put hvalue w hid⟩
  simp only [burnCredential, Prog.run_bind, run_storePendingRequest_at hwrite hvalue, hfailed,
    Prog.pure_eq_ret, Prog.run_ret]

theorem run_burnCredential_deleted (hp : storedPending w.store id = some p)
    (hdelete : env.HealthyAt (w.storageOps + 1)) :
    HandsOut ((burnCredential core id p).run (exec env) w).1 id p := by
  obtain ⟨value, hvalue⟩ :=
    exists_marshalJSON (r := { p with credentialData := none }) hp rfl (.inr rfl)
  have hops : ((storePendingRequest { p with credentialData := none }).run
      (exec env) w).2.storageOps = w.storageOps + 1 := by
    rw [storePendingRequest, hvalue]
    show (exec env (.storagePut _ _) w).2.storageOps = _
    simp only [exec]
    split <;> rfl
  rw [burnCredential, Prog.run_bind]
  generalize ((storePendingRequest { p with credentialData := none }).run (exec env) w).2 = w'
    at hops
  have hdone : (storageDelete (pendingKey id)).run (exec env) w' =
      (.ok (), w'.delete (pendingKey id)) := if_neg (by simp [hops, hdelete _])
  simp only [Prog.run_bind, hdone, Prog.pure_eq_ret, Prog.run_ret]
  rfl

/-- With one failing step a credential can be had now or later iff the step is not the deletion of
the entry. -/
theorem retrievable_iff (core : Core) (env : Env) (w : World) (req : Request) (id : String)
    (p : PendingRequest) (step : FetchStep) (hp : storedPending w.store id = some p)
    (hid : p.requestID = id) (hmay : mayFetch core req p = true) (hstatus : p.status = .approved)
    (hsome : p.credentialData.isSome = true)
    (hwindow : p.approvedAt = 0 ∨ env.now - p.approvedAt ≤ approvalCredentialTTL)
    (hfails : ∀ n op, env.fails n op = true ↔ n = w.storageOps + step.number) :
    Retrievable core env w req id p ↔ step ≠ .delete := by
  have hhealthy : ∀ n, n ≠ step.number → env.HealthyAt (w.storageOps + n) := fun n hn op =>
    Bool.eq_false_iff.mpr (mt (hfails _ op).mp (by omega))
  have hfetch := run_fetch_of_unread (hhealthy 0 (by cases step <;> decide)) hp hmay hstatus
    (Option.isNone_eq_false_iff.mpr hsome) hwindow
  by_cases hstep : step = .delete
  · subst hstep
    obtain ⟨w', hburn, htombstone⟩ := run_burnCredential_undeleted (w := w.tick) hp hid
      (hhealthy 1 (by decide)) fun op => (hfails _ op).mpr rfl
    exact iff_of_false (not_retrievable_of_tombstone (hfetch.trans hburn) htombstone hstatus)
      (not_not.mpr rfl)
  · refine iff_of_true (.inl ?_) hstep
    rw [hfetch]
    refine run_burnCredential_deleted (w := w.tick) hp (hhealthy 2 fun h => hstep ?_)
    cases step <;> first | rfl | cases h

def approvedWorld : World where
  store := (sampleApproved sampleBackend).store

def approvedEntry : PendingRequest :=
  (executedEntry (Env.quiet 1 sampleBackend) sampleApprover sampleEntry.normalize
    (sampleBackend sampleRequest)).normalize

def failingAt (step : FetchStep) : Env :=
  { Env.quiet 2 sampleBackend with fails := fun n _ => n == step.number }

/-- The deletion fails, and the tombstone has replaced the credential. -/
theorem not_retrievable_failingAt :
    storedPending approvedWorld.store "r1" = some approvedEntry ∧
    ¬ Retrievable sampleCore (failingAt .delete) approvedWorld sampleRequest "r1"
      approvedEntry := by
  refine ⟨rfl, not_retrievable_of_tombstone (e := storageFailed) rfl rfl rfl⟩

theorem retrievable_failingAt :
    Retrievable sampleCore (failingAt .tombstone) approvedWorld sampleRequest "r1" approvedEntry :=
  (retrievable_iff sampleCore (failingAt .tombstone) approvedWorld sampleRequest "r1" approvedEntry
    .tombstone rfl rfl rfl rfl rfl (.inr (by decide)) (by simp [failingAt, approvedWorld])).mpr
    nofun

end VaultProofs.FailedSteps
