import VaultProofs.CredentialTwins
import VaultProofs.ApprovalRuns

/-!
Only a fetch by a caller who may fetch the entry observes the contents of a
credential. Every other call runs alike on stores that differ in nothing else.
-/

namespace VaultProofs.CredentialSecrecy

open GoStrings JsonValues EffectPrograms RelationalPrograms ApprovalEntries VaultEffects
open ApprovalInterceptor EffectFootprints RequestRouting ApprovalHandlers ApprovalEffects
open RuleHandlers ListingHandlers ListingFootprints ApprovalRuns CredentialTwins

variable {C : Contents} {env : Env}

variable (C env) in
abbrev Unobserving {α : Type} (p q : VaultProg α) : Prop :=
  Coupled (exec env) (WorldTwins C) Eq p q

variable (C env) in
abbrev Blindly {α : Type} (p : VaultProg α) : Prop := Unobserving C env p p

variable {α : Type}

theorem delete_unobserving (henv : BlindWrites env) (key : Key) :
    Blindly C env (storageDelete key) :=
  blind_coupled henv (.storageDelete key) trivial

theorem list_unobserving (henv : BlindWrites env) (folder : Folder) :
    Blindly C env (storageList folder) :=
  blind_coupled henv (.storageList folder) trivial

theorem unobserving_timeNow (henv : BlindWrites env) {R : α → α → Prop} {f g : Time → VaultProg α}
    (hf : ∀ now, Coupled (exec env) (WorldTwins C) R (f now) (g now)) :
    Coupled (exec env) (WorldTwins C) R (timeNow >>= f) (timeNow >>= g) :=
  (blind_coupled henv .timeNow trivial).bind_same hf

theorem reads_unobserving (henv : BlindWrites env) {p : VaultProg α} (hp : ReadsOnly p) :
    Blindly C env p :=
  outside_coupled henv hp.outside

theorem unobserving_getPendingRequest {id : String}
    {f g : Except GoError (Option PendingRequest) → VaultProg α}
    (herror : ∀ e, Unobserving C env (f (.error e)) (g (.error e)))
    (hnone : Unobserving C env (f (.ok none)) (g (.ok none))) (hsome : ∀ p p', Held C p p' →
      Unobserving C env (f (.ok (some p))) (g (.ok (some p')))) :
    Unobserving C env (getPendingRequest id >>= f) (getPendingRequest id >>= g) := by
  refine (getPendingRequest_coupled id).bind ?_
  intro found found' hfound
  cases hfound with
  | error e => exact herror e
  | none => exact hnone
  | some hheld => exact hsome _ _ hheld

/-! Interception -/

section Interception

theorem isSome_of_alike {credential credential' : Option GoMap}
    (h : Option.Rel C.Alike credential credential') : credential'.isSome = credential.isSome := by
  cases h with
  | none | some _ => rfl

variable (henv : BlindWrites env)

include henv

variable (core : Core) (req : Request)

theorem scanActiveRequests_unobserving (keys : List String) :
    Blindly C env (scanActiveRequests core req keys) := by
  induction keys with
  | nil => exact coupled_refl
  | cons key rest ih =>
    refine unobserving_getPendingRequest (fun _ => ih) ih ?_
    rintro p _ ⟨⟨halike⟩, -⟩
    refine coupled_ite ih ?_
    have hdelete := (delete_unobserving henv (pendingKey key)).bind_same fun _ => ih
    cases p.status with
    | pending =>
      refine unobserving_timeNow henv fun now => ?_
      exact coupled_ite coupled_refl hdelete
    | approved =>
      simp only [isSome_of_alike halike]
      refine unobserving_timeNow henv fun now => ?_
      exact coupled_ite coupled_refl hdelete
    | denied | unknown => exact ih

theorem parkRequest_unobserving (rule : ApprovalRule) :
    Blindly C env (parkRequest req rule) := by
  have huuid : Blindly C env generateUUID := blind_coupled henv _ trivial
  refine huuid.bind_same fun answer => ?_
  cases answer with
  | error e => exact coupled_refl
  | ok id =>
    refine unobserving_timeNow henv fun now => ?_
    refine (storePendingRequest_coupled henv (.refl _)).bind_same fun stored => ?_
    cases stored with
    | error e | ok done => exact coupled_refl

theorem parkUnlessActive_unobserving (rule : ApprovalRule) :
    Blindly C env (parkUnlessActive core req rule) := by
  have hpark := parkRequest_unobserving (C := C) henv req rule
  have hcheck : Blindly C env (checkActiveApprovalRequest core req) := by
    refine (list_unobserving henv .pending).bind_same fun listed => ?_
    cases listed with
    | error e => exact coupled_refl
    | ok keys => exact scanActiveRequests_unobserving henv core req keys
  refine coupled_ite (hcheck.bind_same fun block => ?_) hpark
  cases block with
  | some reply => exact coupled_refl
  | none => exact hpark

theorem checkNeedsApproval_unobserving (auth : Option (List String)) :
    Blindly C env (checkNeedsApproval core req auth) := by
  refine coupled_ite coupled_refl ?_
  refine coupled_ite coupled_refl ?_
  refine coupled_ite coupled_refl ?_
  refine (list_unobserving henv .config).bind_same fun listed => ?_
  cases listed with
  | error e => exact coupled_refl
  | ok keys =>
    refine (reads_unobserving henv (findMatchingRule_reads _ _)).bind_same fun found => ?_
    cases found with
    | none => exact coupled_refl
    | some rule => exact parkUnlessActive_unobserving henv core req rule

theorem interceptOrRoute_unobserving (bypass : Bool) (auth : Option (List String))
    (req : Request) :
    Blindly C env (interceptOrRoute core bypass auth req) := by
  have hroute : Blindly C env (routeRequest core req) := by
    have hperforms : (routeRequest core req).Performs Blind fun _ => True := by
      refine Prog.performs_perform trivial fun reply => ?_
      exact settleResponse_performs trivial (fun _ _ => trivial) core req reply
    exact coupled_of_performs (blind_coupled henv) hperforms
  refine coupled_ite hroute ?_
  refine (checkNeedsApproval_unobserving henv core req auth).bind_same fun check => ?_
  exact coupled_ite coupled_refl hroute

theorem handleRequest_unobserving (bypass : Bool) (auth : Option (List String))
    (req : Request) :
    Blindly C env (handleRequest core bypass auth req) := by
  refine coupled_ite ?_ (interceptOrRoute_unobserving henv core bypass auth req)
  have hroute : ∀ r, Blindly C env (doRouting r) :=
    fun r => blind_coupled henv (.doRouting r) trivial
  refine (hroute _).bind_same fun reply => ?_
  split
  · exact coupled_refl
  · exact coupled_refl
  · exact coupled_ite coupled_refl (interceptOrRoute_unobserving henv core bypass auth _)

end Interception

/-! Votes -/

section Votes

variable {p p' : PendingRequest} (henv : BlindWrites env)

include henv

variable (core : Core) (req : Request) (id : String)

theorem executeApprovedRequest_coupled (h : Held C p p') : Coupled (exec env) (WorldTwins C)
      (fun result result' => result.1 = result'.1 ∧ Held C result.2 result'.2)
      (executeApprovedRequest p) (executeApprovedRequest p') := by
  obtain ⟨⟨halike⟩, hencodable⟩ := h
  have huuid : Blindly C env generateUUID := blind_coupled henv _ trivial
  refine huuid.bind_same fun answer => ?_
  cases answer with
  | error e => exact coupled_ret ⟨rfl, ⟨halike⟩, hencodable⟩
  | ok execID =>
    have hroute : ∀ r, Blindly C env (doRouting r) :=
      fun r => blind_coupled henv (.doRouting r) trivial
    refine (hroute (reconstructedRequest p execID)).bind_same fun reply => ?_
    cases hreply : reply.err with
    | some e => exact coupled_ret ⟨rfl, ⟨halike⟩, hencodable⟩
    | none =>
      -- The credential is replaced, so the entries are equal from here on.
      refine unobserving_timeNow henv fun now => ?_
      refine (storePendingRequest_coupled henv (.refl _)).bind_same fun stored => ?_
      cases stored with
      | error e | ok done => exact coupled_ret ⟨rfl, .refl _⟩

theorem executeOrRollBack_unobserving (rule : ApprovalRule) (h : Held C p p') :
    Unobserving C env (executeOrRollBack id rule p) (executeOrRollBack id rule p') := by
  refine (executeApprovedRequest_coupled henv h).bind ?_
  rintro ⟨err, r⟩ ⟨err', r'⟩ ⟨herr, hheld⟩
  cases herr
  have hback : Held C (rolledBack r) (rolledBack r') := hheld.map (fun _ _ => rfl) fun _ => rfl
  cases err with
  | none =>
    cases hheld.twins
    exact coupled_refl
  | some e => exact (storePendingRequest_coupled henv hback).bind_same fun _ => coupled_refl

theorem finishExecution_unobserving (rule : ApprovalRule) (h : Held C p p') :
    Unobserving C env (finishExecution id rule p) (finishExecution id rule p') := by
  have hexecute := executeOrRollBack_unobserving henv id rule h
  have hreply : voteReply id rule p true = voteReply id rule p' true := by
    cases h.twins
    rfl
  refine unobserving_getPendingRequest (fun _ => coupled_refl) hexecute ?_
  rintro r _ ⟨⟨halike⟩, -⟩
  simp only [Option.bind_some, isSome_of_alike halike]
  exact coupled_ite (coupled_ret hreply) hexecute

theorem recordVote_unobserving (rule : ApprovalRule) (h : Held C p p') :
    Unobserving C env (recordVote req id rule p) (recordVote req id rule p') := by
  refine unobserving_timeNow henv fun now => ?_
  have hmarked : Held C (markedEntry req p now) (markedEntry req p' now) :=
    h.map (f := (markedEntry req · now)) (fun _ _ => rfl) fun _ => rfl
  have hcast : Held C (castVote req p now) (castVote req p' now) :=
    h.map (f := (castVote req · now)) (fun _ _ => rfl) fun _ => rfl
  cases h.twins
  refine coupled_ite ?_ ?_
  · refine (storePendingRequest_coupled henv hmarked).bind_same fun stored => ?_
    cases stored with
    | error e => exact coupled_refl
    | ok done => exact finishExecution_unobserving henv id rule hmarked
  refine (storePendingRequest_coupled henv hcast).bind_same fun stored => ?_
  cases stored with
  | error e | ok done => exact coupled_refl

theorem guarded_unobserving {core : Core} {id : String}
    {f g : ApprovalRule → VaultProg Reply} (h : Held C p p')
    (hf : ∀ rule, Unobserving C env (f rule) (g rule)) :
    Unobserving C env (guarded core id p f) (guarded core id p' g) := by
  cases h.twins
  refine coupled_ite coupled_refl ?_
  refine unobserving_timeNow henv fun now => ?_
  have hdelete := delete_unobserving (C := C) henv (pendingKey id)
  refine coupled_ite (hdelete.bind_same fun _ => coupled_refl) ?_
  refine (reads_unobserving henv (getApprovalRule_reads p.ruleID)).bind_same fun found => ?_
  split
  · exact coupled_refl
  · exact hdelete.bind_same fun _ => coupled_refl
  · exact hf _

theorem handleApprovalApprove_unobserving :
    Blindly C env (handleApprovalApprove core req id) := by
  refine unobserving_getPendingRequest (fun _ => coupled_refl) coupled_refl ?_
  refine fun p p' hheld => guarded_unobserving henv hheld fun rule => ?_
  have hvote := recordVote_unobserving henv req id rule hheld
  cases hheld.twins
  refine coupled_ite coupled_refl ?_
  refine coupled_ite coupled_refl ?_
  exact coupled_ite coupled_refl hvote

theorem handleApprovalDeny_unobserving :
    Blindly C env (handleApprovalDeny core req id) := by
  refine unobserving_getPendingRequest (fun _ => coupled_refl) coupled_refl ?_
  refine fun p p' hheld => guarded_unobserving henv hheld fun rule => ?_
  have hdenied : Held C { p with status := .denied } { p' with status := .denied } :=
    hheld.map (f := ({ · with status := .denied })) (fun _ _ => rfl) fun _ => rfl
  cases hheld.twins
  refine coupled_ite coupled_refl ?_
  refine (storePendingRequest_coupled henv hdenied).bind_same fun stored => ?_
  cases stored with
  | error e => exact coupled_refl
  | ok done =>
    refine unobserving_timeNow henv fun now => ?_
    have hrecord := outside_coupled (C := C) henv (storeHistoryEntry_outside
      (historyEntry p .denied now req.entityID (resolverName core req.entityID)))
    exact hrecord.bind_same fun _ => coupled_refl

end Votes

/-! Rules and listings -/

section Listings

variable (henv : BlindWrites env)

include henv

variable (core : Core) (req : Request)

theorem handleApprovalRuleDelete_unobserving (ruleID : String) :
    Blindly C env (handleApprovalRuleDelete ruleID) := by
  have hkeys : ∀ keys, Blindly C env (sweepKeys ruleID keys) := by
    intro keys
    induction keys with
    | nil => exact coupled_refl
    | cons key rest ih =>
      refine unobserving_getPendingRequest (fun _ => ih) ih ?_
      rintro p _ ⟨⟨halike⟩, -⟩
      have hdelete := delete_unobserving (C := C) henv (pendingKey key)
      exact coupled_ite (hdelete.bind_same fun _ => ih) ih
  have hsweep : Blindly C env (sweepPendingRequestsByRule ruleID) := by
    refine (list_unobserving henv .pending).bind_same fun listed => ?_
    cases listed with
    | error e => exact coupled_refl
    | ok keys => exact (hkeys keys).bind_same fun _ => coupled_refl
  refine hsweep.bind_same fun _ => ?_
  refine (delete_unobserving henv _).bind_same fun deleted => ?_
  cases deleted with
  | error e | ok done => exact coupled_refl

theorem handleApprovalPendingRead_unobserving (id : String) :
    Blindly C env (handleApprovalPendingRead core req id) := by
  refine unobserving_getPendingRequest (fun _ => coupled_refl) coupled_refl ?_
  rintro p _ ⟨⟨halike⟩, -⟩
  refine (reads_unobserving henv (mayReadPending_reads core req p)).bind_same fun allowed => ?_
  refine coupled_ite ?_ coupled_refl
  refine coupled_ite ?_ coupled_refl
  refine unobserving_timeNow henv fun now => ?_
  refine coupled_ite ?_ coupled_refl
  exact (delete_unobserving henv _).bind_same fun _ => coupled_refl

theorem approvableRows_unobserving (keys : List String) :
    Blindly C env (approvableRows core req keys) := by
  induction keys with
  | nil => exact coupled_refl
  | cons key rest ih =>
    refine unobserving_getPendingRequest (fun _ => ih) ih ?_
    rintro p _ ⟨⟨halike⟩, -⟩
    refine coupled_ite ih ?_
    refine unobserving_timeNow henv fun now => ?_
    refine coupled_ite ?_ ?_
    · exact (delete_unobserving henv _).bind_same fun _ => ih
    · refine (reads_unobserving henv (mayApproveRow_reads core req p)).bind_same fun _ => ?_
      exact ih.bind_same fun rows => coupled_refl

theorem handleApprovalApprovable_unobserving :
    Blindly C env (handleApprovalApprovable core req) := by
  refine coupled_ite coupled_refl ?_
  refine (list_unobserving henv .pending).bind_same fun listed => ?_
  cases listed with
  | error e => exact coupled_refl
  | ok keys =>
    exact (approvableRows_unobserving henv core req keys).bind_same fun _ => coupled_refl

theorem myRequestRows_unobserving (keys : List String) :
    Blindly C env (myRequestRows req keys) := by
  induction keys with
  | nil => exact coupled_refl
  | cons key rest ih =>
    refine unobserving_getPendingRequest (fun _ => ih) ih ?_
    rintro p _ ⟨⟨halike⟩, -⟩
    refine coupled_ite ih ?_
    refine unobserving_timeNow henv fun now => ?_
    refine coupled_ite ?_ ?_
    · exact (delete_unobserving henv _).bind_same fun _ => ih
    · exact ih.bind_same fun rows => coupled_refl

theorem handleApprovalMyRequests_unobserving : Blindly C env (handleApprovalMyRequests req) := by
  refine coupled_ite coupled_refl ?_
  refine (list_unobserving henv .pending).bind_same fun listed => ?_
  cases listed with
  | error e => exact coupled_refl
  | ok keys =>
    refine (myRequestRows_unobserving henv req keys).bind_same fun rows => ?_
    have hhistory := outside_coupled (C := C) henv
      (listHistoryEntriesForUser_outside req.entityID)
    refine hhistory.bind_same fun entries => ?_
    cases entries with
    | error e | ok entries => exact coupled_refl

end Listings

theorem handleApprovalFetch_refused (core : Core) {req : Request} {id : String} {w w' : World}
    (hw : WorldTwins C w w')
    (hrefused : ∀ p, storedPending w.store id = some p → mayFetch core req p = false) :
    ((handleApprovalFetch core req id).run (exec env) w).1 =
        ((handleApprovalFetch core req id).run (exec env) w').1 ∧
      WorldTwins C ((handleApprovalFetch core req id).run (exec env) w).2
        ((handleApprovalFetch core req id).run (exec env) w').2 := by
  have hread : Coupled (exec env) (WorldTwins C) (Found C) (getPendingRequest id)
      (getPendingRequest id) := getPendingRequest_coupled id
  obtain ⟨hfound, hw'⟩ := hread w w' hw
  have hstored : ∀ p, ((getPendingRequest id).run (exec env) w).1 = .ok (some p) →
      storedPending w.store id = some p := fun p hp => storedPending_of_read hp
  unfold handleApprovalFetch
  rw [Prog.run_bind, Prog.run_bind]
  revert hstored hfound
  generalize ((getPendingRequest id).run (exec env) w).1 = found
  generalize ((getPendingRequest id).run (exec env) w').1 = found'
  intro hfound hstored
  cases hfound with
  | error e | none => exact ⟨rfl, hw'⟩
  | @some p p' hheld =>
    have hp := hrefused p (hstored p rfl)
    have hp' : mayFetch core req p' = false := by
      cases hheld.twins
      exact hp
    simp only [hp, hp', Bool.false_eq_true, if_false]
    exact ⟨rfl, hw'⟩

/-- Any call but a fetch by a caller who may fetch the entry answers the same on both stores and
leaves stores that differ in the contents of credentials only. -/
theorem credentials_unobserved (C : Contents) (core : Core) (env : Env) (henv : BlindWrites env)
    (call : Call) (w w' : World) (hw : WorldTwins C w w')
    (hfetch : ∀ req id p, call = .fetch req id → storedPending w.store id = some p →
      mayFetch core req p = false) :
    ((call.prog core).run (exec env) w).1 = ((call.prog core).run (exec env) w').1 ∧
      WorldTwins C ((call.prog core).run (exec env) w).2
        ((call.prog core).run (exec env) w').2 := by
  cases call with
  | ruleList => exact reads_unobserving henv handleApprovalRuleList_reads w w' hw
  | ruleRead ruleID =>
    exact reads_unobserving henv (handleApprovalRuleRead_reads core ruleID) w w' hw
  | ruleWrite req ruleID fields =>
    exact outside_coupled henv (handleApprovalRuleWrite_outside core req ruleID fields) w w' hw
  | ruleDelete ruleID => exact handleApprovalRuleDelete_unobserving henv ruleID w w' hw
  | requiresApproval path =>
    exact reads_unobserving henv (handleApprovalRequiresApproval_reads path) w w' hw
  | request bypass auth req => exact handleRequest_unobserving henv core bypass auth req w w' hw
  | approve req id => exact handleApprovalApprove_unobserving henv core req id w w' hw
  | deny req id => exact handleApprovalDeny_unobserving henv core req id w w' hw
  | fetch req id => exact handleApprovalFetch_refused core hw fun p hp => hfetch req id p rfl hp
  | pendingList req =>
    exact reads_unobserving henv (handleApprovalPendingList_reads core req) w w' hw
  | pendingRead req id => exact handleApprovalPendingRead_unobserving henv core req id w w' hw
  | approvable req => exact handleApprovalApprovable_unobserving henv core req w w' hw
  | myRequests req => exact handleApprovalMyRequests_unobserving henv req w w' hw
  | history req => exact outside_coupled henv (handleApprovalHistory_outside core req) w w' hw

def secretEntry (password : String) : PendingRequest :=
  { sampleEntry with
    status := .approved
    approvedAt := 1
    credentialData := some [(ofString "password", textValue password)] }

def secretWorld (password : String) : World where
  store := (∅ : Store).insert (pendingKey "r1") (PendingRequest.blob (secretEntry password))

theorem storeTwins_empty : StoreTwins C ∅ ∅ :=
  ⟨rfl, fun _ _ => rfl, fun _ => .none⟩

theorem secretWorld_twins :
    WorldTwins .sameKeys (secretWorld "s3cr3t") (secretWorld "hunter2") := by
  refine ⟨storeTwins_empty.insert _ (fun hkey => (hkey rfl).elim) ?_, rfl, rfl, rfl⟩
  have htwins : Twins .sameKeys (secretEntry "s3cr3t") (secretEntry "hunter2") := ⟨.some rfl⟩
  exact .entry rfl rfl htwins.normalize

theorem credentials_unobserved_mallory :
    ((Call.fetch { entityID := "mallory" } "r1").prog sampleCore |>.run (exec sampleEnv)
        (secretWorld "s3cr3t")).1 =
      ((Call.fetch { entityID := "mallory" } "r1").prog sampleCore |>.run (exec sampleEnv)
        (secretWorld "hunter2")).1 ∧ WorldTwins .sameKeys
      ((Call.fetch { entityID := "mallory" } "r1").prog sampleCore |>.run (exec sampleEnv)
        (secretWorld "s3cr3t")).2
      ((Call.fetch { entityID := "mallory" } "r1").prog sampleCore |>.run (exec sampleEnv)
        (secretWorld "hunter2")).2 := by
  refine credentials_unobserved .sameKeys sampleCore sampleEnv (fun _ _ _ _ => rfl) _ _ _
    secretWorld_twins ?_
  rintro req id p ⟨⟩ hp
  cases hp
  decide

end VaultProofs.CredentialSecrecy
