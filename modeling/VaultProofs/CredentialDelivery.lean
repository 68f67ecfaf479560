import VaultProofs.ApprovalExecution

/-!
What the requester gets for an executed request.
-/

namespace VaultProofs.CredentialDelivery

open GoStrings JsonValues EffectPrograms ApprovalEntries VaultEffects ApprovalInterceptor
open ApprovalHandlers ApprovalExecution

/-- The reply is a success with every key and value of `data`, up to the types of numbers. -/
def Delivered (data : GoMap) (reply : Reply) : Prop :=
  reply.err = none ∧ ∃ resp, reply.resp = some resp ∧ resp.isError = false ∧
    ∀ key value, lastValue data key = some value →
      (lastValue resp.data key).map GoValue.eraseKinds = some value.eraseKinds

/-- There is something to deliver, JSON writes it without loss, and no lease hint replaces an entry
by another value. -/
structure Deliverable (data hints : GoMap) : Prop where
  nonempty : data ≠ []
  validText : ∀ key value, lastValue data key = some value → ValidUTF8 key ∧ value.ValidText
  agrees : ∀ key value hint, lastValue data key = some value →
    lastValue hints key = some hint → hint.eraseKinds = value.eraseKinds

variable {core : Core} {env : Env} {w : World} {req : Request} {id : String} {q : PendingRequest}

theorem fetch_of_retrieved (henv : env.Reliable) (hq : storedPending w.store id = some q)
    (hmay : mayFetch core req q = true) (hstatus : q.status = .approved)
    (hnone : q.credentialData = none) :
    ((handleApprovalFetch core req id).run (exec env) w).1 =
      errorReply (ofString "credential for request " ++ quoteID core id ++
        ofString " has already been retrieved") := by
  simp only [handleApprovalFetch, fetchPending, Prog.run_bind,
    run_getPendingRequest_at (henv _) hq, hmay, if_true, hstatus, hnone, Option.isNone_none,
    Prog.pure_eq_ret, Prog.run_ret]

theorem run_fetch_of_unread (hn : env.HealthyAt w.storageOps)
    (hq : storedPending w.store id = some q) (hmay : mayFetch core req q = true)
    (hstatus : q.status = .approved) (hsome : q.credentialData.isNone = false)
    (hwindow : q.approvedAt = 0 ∨ env.now - q.approvedAt ≤ approvalCredentialTTL) :
    (handleApprovalFetch core req id).run (exec env) w =
      (burnCredential core id q).run (exec env) w.tick := by
  have hopen : ¬ (q.approvedAt ≠ 0 ∧ env.now - q.approvedAt > approvalCredentialTTL) := by
    rintro ⟨hne, hlate⟩
    exact Int.not_lt.mpr (hwindow.resolve_left hne) hlate
  simp only [handleApprovalFetch, fetchPending, Prog.run_bind, run_getPendingRequest_at hn hq, hmay,
    if_true, hstatus, hsome, Bool.false_eq_true, if_false, run_timeNow, hopen]

theorem fetch_of_unread (henv : env.Reliable) (hq : storedPending w.store id = some q)
    (hmay : mayFetch core req q = true) (hstatus : q.status = .approved)
    (hsome : q.credentialData.isNone = false)
    (hwindow : q.approvedAt = 0 ∨ env.now - q.approvedAt ≤ approvalCredentialTTL) :
    ((handleApprovalFetch core req id).run (exec env) w).1 =
      dataReply (credentialResponse id q) := by
  rw [run_fetch_of_unread (henv _) hq hmay hstatus hsome hwindow]
  simp only [burnCredential, Prog.run_bind, run_storageDelete henv, Prog.pure_eq_ret, Prog.run_ret]

variable {data : GoMap}

variable {key : GoString}

theorem mem_leaseHints {ttl maxTTL : Duration} {hint : GoValue}
    (h : (key, hint) ∈ leaseHints ttl maxTTL) :
    ValidUTF8 key ∧ ∃ n : Int, hint.eraseKinds = .number .jsonNumber (.int n) := by
  rcases List.mem_append.mp h with h | h
  · split at h
    · obtain ⟨rfl, rfl⟩ : key = ofString "lease_duration" ∧ hint = intValue (wholeSeconds ttl) := by
        simpa using h
      exact ⟨validUTF8_ofString _, _, rfl⟩
    · cases h
  split at h
  · obtain ⟨rfl, rfl⟩ : key = ofString "lease_max_duration" ∧
        hint = intValue (wholeSeconds maxTTL) := by
      simpa using h
    exact ⟨validUTF8_ofString _, _, rfl⟩
  · cases h

section

variable (hq : q.credentialData = some (normalizeEntries data))

include hq

theorem validUTF8_of_credentialResponse {value : GoValue}
    (h : lastValue (credentialResponse id q) key = some value) : ValidUTF8 key := by
  have hmem := mem_of_lastValue h
  simp only [credentialResponse, hq, Option.getD_some, List.mem_append, List.mem_cons,
    Prod.mk.injEq, List.not_mem_nil, or_false] at hmem
  rcases hmem with ((⟨rfl, -⟩ | ⟨rfl, -⟩) | hdata) | hhint
  · exact validUTF8_ofString _
  · exact validUTF8_ofString _
  · exact validUTF8_of_mem_normalizeEntries hdata
  · exact (mem_leaseHints hhint).1

omit hq in
theorem isError_credentialResponse (id : String) (q : PendingRequest) :
    Response.isError { data := credentialResponse id q } = false := by
  cases herror : Response.isError { data := credentialResponse id q } with
  | false => rfl
  | true =>
    simp only [Response.isError, Response.has, Bool.and_eq_true, Bool.or_eq_true, beq_iff_eq]
      at herror
    obtain ⟨hhas, hsize⟩ := herror
    have hle : 3 ≤ size (credentialResponse id q) := by
      apply length_le_size [ofString "status", ofString "request_id", ofString "error"]
      · decide
      intro key hkey
      rcases List.mem_cons.mp hkey with rfl | hkey
      · simp [credentialResponse]
      rcases List.mem_cons.mp hkey with rfl | hkey
      · simp [credentialResponse]
      · obtain rfl := List.mem_singleton.mp hkey
        revert hhas
        cases lastValue (credentialResponse id q) (ofString "error") <;> simp
    omega

theorem lastValue_credentialResponse_of_data (hkeys : ∀ entry ∈ data, ValidUTF8 entry.1)
    {value : GoValue} (hvalue : lastValue data key = some value) :
    lastValue (credentialResponse id q) key =
      some ((lastValue (leaseHints q.secretTTL q.secretMaxTTL) key).getD value.normalize) := by
  rw [credentialResponse, hq, Option.getD_some, lastValue_append, lastValue_append,
    lastValue_normalizeEntries key hkeys, hvalue]
  cases lastValue (leaseHints q.secretTTL q.secretMaxTTL) key with
  | none | some hint => rfl

omit hq in
theorem validText_of_hint {ttl maxTTL : Duration} {value hint : GoValue}
    (hhint : lastValue (leaseHints ttl maxTTL) key = some hint)
    (heq : hint.eraseKinds = value.eraseKinds) : value.ValidText := by
  obtain ⟨-, n, hn⟩ := mem_leaseHints (mem_of_lastValue hhint)
  cases value <;> simp_all [GoValue.eraseKinds, GoValue.ValidText]

theorem deliverable_of_delivered (hdata : data ≠ [])
    (h : Delivered data (dataReply (credentialResponse id q))) :
    Deliverable data (leaseHints q.secretTTL q.secretMaxTTL) := by
  obtain ⟨-, resp, hresp, -, hvalues⟩ := h
  cases hresp
  have hkeys : ∀ entry ∈ data, ValidUTF8 entry.1 := by
    intro entry hentry
    obtain ⟨value, hvalue⟩ := Option.isSome_iff_exists.mp (lastValue_isSome_of_mem hentry)
    obtain ⟨found, hfound, -⟩ := Option.map_eq_some_iff.mp (hvalues _ _ hvalue)
    exact validUTF8_of_credentialResponse hq hfound
  have hfinal : ∀ key value, lastValue data key = some value →
      ((lastValue (leaseHints q.secretTTL q.secretMaxTTL) key).getD value.normalize).eraseKinds =
        value.eraseKinds := by
    intro key value hvalue
    have hdelivered := hvalues key value hvalue
    rw [lastValue_credentialResponse_of_data hq hkeys hvalue] at hdelivered
    exact Option.some.inj hdelivered
  refine ⟨hdata, ?_, ?_⟩
  · intro key value hvalue
    refine ⟨hkeys _ (mem_of_lastValue hvalue), ?_⟩
    have hvalueFinal := hfinal key value hvalue
    cases hhint : lastValue (leaseHints q.secretTTL q.secretMaxTTL) key with
    | none =>
      rw [hhint] at hvalueFinal
      exact eraseKinds_normalize_eq_iff.mp hvalueFinal
    | some hint =>
      rw [hhint] at hvalueFinal
      exact validText_of_hint hhint hvalueFinal
  · intro key value hint hvalue hhint
    have hvalueFinal := hfinal key value hvalue
    rwa [hhint] at hvalueFinal

theorem delivered_of_deliverable (h : Deliverable data (leaseHints q.secretTTL q.secretMaxTTL)) :
    Delivered data (dataReply (credentialResponse id q)) := by
  refine ⟨rfl, _, rfl, isError_credentialResponse id q, ?_⟩
  intro key value hvalue
  have hkeys : ∀ entry ∈ data, ValidUTF8 entry.1 := by
    intro entry hentry
    obtain ⟨found, hfound⟩ := Option.isSome_iff_exists.mp (lastValue_isSome_of_mem hentry)
    exact (h.validText _ _ hfound).1
  rw [lastValue_credentialResponse_of_data hq hkeys hvalue, Option.map_some]
  congr 1
  cases hhint : lastValue (leaseHints q.secretTTL q.secretMaxTTL) key with
  | none => exact eraseKinds_normalize_eq_iff.mpr (h.validText key value hvalue).2
  | some hint => exact h.agrees key value hint hvalue hhint

end

def executedEntry (env : Env) (req : Request) (p : PendingRequest) (reply : Reply) :
    PendingRequest :=
  withCredential (markedEntry req p env.now) reply.resp env.now

theorem storedPending_of_approved {core : Core} {env : Env} {w : World} {req : Request}
    {id execID : String} {p : PendingRequest} {rule : ApprovalRule}
    (h : Ready core env w req id p rule execID)
    (herr : (env.backend (executedRequest env req p execID)).err = none)
    (hok : ((handleApprovalApprove core req id).run (exec env) w).1.err = none) :
    storedPending ((handleApprovalApprove core req id).run (exec env) w).2.store id =
      some (executedEntry env req p
        (env.backend (executedRequest env req p execID))).normalize := by
  obtain ⟨w', -, -, -, hrun⟩ := h.run_approve
  cases hvalue : (withCredential (markedEntry req p env.now)
      (env.backend (executedRequest env req p execID)).resp env.now).marshalJSON with
  | some value =>
    rw [hrun, run_executeOrRollBack_stored h.reliable h.uuid rfl herr hvalue]
    exact storedPending_put hvalue _ h.requestID
  | none =>
    rw [hrun, run_executeOrRollBack_unencodable h.uuid rfl herr hvalue] at hok
    cases hok

/-- After a successful execution and within the retrieval window, the requester gets what the
backend returned iff it is deliverable. -/
theorem delivered_iff (core core' : Core) (env env' : Env) (w w' : World) (req req' : Request)
    (id execID : String) (p : PendingRequest) (rule : ApprovalRule) (reply : Reply)
    (h : Ready core env w req id p rule execID)
    (hreply : env.backend (executedRequest env req p execID) = reply) (herr : reply.err = none)
    (hok : ((handleApprovalApprove core req id).run (exec env) w).1.err = none)
    (henv : env'.Reliable)
    (hentry : storedPending w'.store id =
      storedPending ((handleApprovalApprove core req id).run (exec env) w).2.store id)
    (hmay : mayFetch core' req' p = true)
    (hwindow : env'.now - env.now ≤ approvalCredentialTTL) :
    Delivered (responseData reply.resp) ((handleApprovalFetch core' req' id).run (exec env') w').1 ↔
      Deliverable (responseData reply.resp)
        (leaseHints (executedEntry env req p reply).secretTTL
          (executedEntry env req p reply).secretMaxTTL) := by
  subst hreply
  rw [storedPending_of_approved h herr hok] at hentry
  cases hdata : responseData (env.backend (executedRequest env req p execID)).resp with
  | nil =>
    have hnone : (executedEntry env req p
        (env.backend (executedRequest env req p execID))).normalize.credentialData = none := by
      simp [executedEntry, withCredential, hdata, storedCredential]
    rw [fetch_of_retrieved henv hentry hmay rfl hnone]
    constructor
    · rintro ⟨-, resp, hresp, herror, -⟩
      cases hresp
      simp [Response.isError, Response.has, size] at herror
    · intro hdeliverable
      exact (hdeliverable.nonempty rfl).elim
  | cons entry rest =>
    have hsome : (executedEntry env req p
        (env.backend (executedRequest env req p execID))).normalize.credentialData =
        some (normalizeEntries (entry :: rest)) := by
      simp [executedEntry, withCredential, hdata, storedCredential]
    rw [fetch_of_unread henv hentry hmay rfl (by rw [hsome]; rfl) (.inr hwindow)]
    constructor
    · exact deliverable_of_delivered hsome (by simp)
    · exact delivered_of_deliverable hsome

def silentBackend (_ : Request) : Reply := {}

def sampleApproved (backend : Request → Reply) : World :=
  ((handleApprovalApprove sampleCore sampleApprover "r1").run (exec (Env.quiet 1 backend))
    (parkedWorld 1)).2

/-- The approve call succeeds, and the first fetch says that the credential has been
retrieved. -/
theorem not_delivered_silentBackend :
    ((handleApprovalApprove sampleCore sampleApprover "r1").run (exec (Env.quiet 1 silentBackend))
      (parkedWorld 1)).1.err = none ∧
    ¬ Delivered (responseData (silentBackend sampleRequest).resp)
      ((handleApprovalFetch sampleCore sampleRequest "r1").run (exec (Env.quiet 2 silentBackend))
        (sampleApproved silentBackend)).1 ∧
    ((handleApprovalFetch sampleCore sampleRequest "r1").run (exec (Env.quiet 2 silentBackend))
      (sampleApproved silentBackend)).1 =
      errorReply (ofString "credential for request \"r1\" has already been retrieved") := by
  refine ⟨rfl, ?_, rfl⟩
  rintro ⟨-, resp, hresp, herror, -⟩
  cases hresp
  simp [Response.isError, Response.has, size] at herror

theorem delivered_sampleBackend :
    Delivered [(ofString "password", textValue "s3cr3t")]
      ((handleApprovalFetch sampleCore sampleRequest "r1").run (exec (Env.quiet 2 sampleBackend))
        (sampleApproved sampleBackend)).1 := by
  refine (delivered_iff sampleCore sampleCore (Env.quiet 1 sampleBackend)
    (Env.quiet 2 sampleBackend) (parkedWorld 1) _ sampleApprover sampleRequest "r1" "5d2b6e0c"
    sampleEntry.normalize (sampleRule 1) _ (ready_sample sampleBackend) rfl rfl rfl
    (fun _ _ => rfl) rfl rfl (by decide)).mpr ?_
  refine ⟨by decide, ?_, ?_⟩
  · intro key value hvalue
    have hmem : (key, value) ∈ [(ofString "password", textValue "s3cr3t")] :=
      mem_of_lastValue hvalue
    obtain ⟨rfl, rfl⟩ := Prod.mk.inj (List.mem_singleton.mp hmem)
    exact ⟨validUTF8_ofString _, validUTF8_ofString _⟩
  · intro key value hint _ hhint
    cases hhint

end VaultProofs.CredentialDelivery
