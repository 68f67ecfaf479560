import VaultProofs.RegistryMoves

/-!
The moves of the approve, deny and fetch handlers and of the listings, and with
them the moves of every call.
-/

namespace VaultProofs.HandlerMoves

open EffectPrograms KeyedMoves ApprovalEntries VaultEffects ApprovalInterceptor EffectFootprints
open ApprovalHandlers ApprovalExecution ApprovalEffects ListingHandlers ListingFootprints
open ApprovalRuns EntryRegistry RegistryMoves

variable {core : Core} {env : Env} {store : Store} {req : Request} {id : String}

/-- What an approve call can make of the registry: nothing, the entry is gone because it was late or
orphaned, or it has been written. -/
inductive Approved (core : Core) (env : Env) (store : Store) (req : Request) (id : String) :
    Registry → Prop where
  | same : Approved core env store req id (registry store)
  | expired {p : PendingRequest} (entry : storedPending store id = some p)
      (status : p.status = .pending) (late : p.expiresAt < env.now) :
      Approved core env store req id
        (Function.update (registry store) id ⟨none, storedHistory store id⟩)
  | orphaned {p : PendingRequest} (entry : storedPending store id = some p)
      (live : env.now ≤ p.expiresAt) :
      Approved core env store req id
        (Function.update (registry store) id ⟨none, storedHistory store id⟩)
  | written {p q : PendingRequest} {rule : ApprovalRule}
      (admitted : Admitted core env.now store req id p rule) (entry : VoteEntry env req p q) :
      Approved core env store req id
        (Function.update (registry store) id ⟨some q.normalize, storedHistory store id⟩)

theorem Approved.update {r : Registry} (h : Approved core env store req id r)
    (entry : Option PendingRequest) :
    Function.update r id ⟨entry, (r id).record⟩ =
      Function.update (registry store) id ⟨entry, storedHistory store id⟩ := by
  cases h with
  | same => rfl
  | _ => rw [Function.update_idem, Function.update_self]

theorem approved_exec (hkeyed : Keyed store) {op : VaultOp} {w : World}
    (hop : Approving core env store req id op)
    (hw : Approved core env store req id (registry w.store)) :
    Approved core env store req id (registry (exec env op w).2.store) := by
  cases hop with
  | get key => rwa [exec_storageGet_snd]
  | now | uuid | route hadmitted hmet huuid => exact hw
  | expire hentry hstatus hlate =>
    simp only [exec]
    split
    · exact hw
    · rw [registry_erase_pending]
      exact hw.update none ▸ .expired hentry hstatus hlate
  | orphan hentry hstatus hlive hrule =>
    simp only [exec]
    split
    · exact hw
    · rw [registry_erase_pending]
      exact hw.update none ▸ .orphaned hentry hlive
  | @put p r rule value hadmitted hentry hvalue =>
    simp only [exec]
    split
    · exact hw
    obtain rfl : r.requestID = id :=
      (congrArg PendingRequest.requestID hentry.parked_eq).trans (hkeyed id p hadmitted.entry)
    rw [registry_insert_pending, PendingRequest.decodeJSON_marshalJSON hvalue]
    exact hw.update _ ▸ .written hadmitted hentry

theorem handleApprovalApprove_approved (core : Core) (env : Env) (req : Request) (id : String)
    (w : World) (hkeyed : Keyed w.store) :
    Approved core env w.store req id
      (registry ((handleApprovalApprove core req id).run (exec env) w).2.store) := by
  refine Prog.RunPerforms.run_keeps
    (K := fun w' => Approved core env w.store req id (registry w'.store)) ?_
    (handleApprovalApprove_approving core env req id w) .same
  exact fun op w' hop hw' => approved_exec hkeyed hop hw'

variable {s : Step}

theorem handleApprovalApprove_leads (hcall : s.call = .approve req id) (w : World)
    (hkeyed : Keyed w.store) :
    RunLeads s w.store (handleApprovalApprove s.core req id) w := by
  unfold RunLeads
  have happroved := handleApprovalApprove_approved s.core s.env req id w hkeyed
  generalize registry ((handleApprovalApprove s.core req id).run (exec s.env) w).2.store = r
    at happroved ⊢
  cases happroved with
  | same => exact Leads.refl _
  | @expired p hentry hstatus hlate =>
    have hfound : findsExpired s.env.now p s.call = true := by
      simp [hcall, findsExpired, hstatus, hlate]
    have hclears : Clears s w.store id p := by
      simp [Clears, hcall]
    exact leads_of_move (.clear hentry hfound hclears)
  | @orphaned p hentry hlive =>
    have htimely : findsExpired s.env.now p s.call = false := by
      simp [hcall, findsExpired, hlive]
    exact leads_of_move (.drop hentry htimely (by simp [hcall]))
  | written hadmitted hentry =>
    exact leads_of_move (.vote hcall hadmitted.entry hadmitted.status hadmitted.live hentry)

variable {w : World}

/-- The history record is written after the entry has been changed: both together are
one move. -/
theorem runLeads_record (henv : s.env.Reliable) {entry : Option PendingRequest}
    {h : ApprovalHistoryEntry} (hid : h.requestID = id) {α : Type}
    {f : Except GoError Unit → VaultProg α} {r : Registry}
    (hw : registry w.store = Function.update r id ⟨entry, (r id).record⟩)
    (hmove : Move s store r id ⟨entry, some h.normalize⟩)
    (hf : ∀ w' : World, registry w'.store = Function.update r id ⟨entry, some h.normalize⟩ →
      Leads (Move s store) (registry w'.store)
        (registry ((f (.ok ())).run (exec s.env) w').2.store)) :
    Leads (Move s store) r (registry ((storeHistoryEntry h >>= f).run (exec s.env) w).2.store) := by
  have hput : (storeHistoryEntry h).run (exec s.env) w =
      (.ok (), w.put (historyKey h.requestID) h.marshalJSON) := exec_storagePut henv _ _ w
  have hregistry : registry (w.put (historyKey h.requestID) h.marshalJSON).store =
      Function.update r id ⟨entry, some h.normalize⟩ := by
    unfold World.put
    subst hid
    have hentry : storedPending w.store h.requestID = entry := by
      have := congrFun hw h.requestID
      rw [Function.update_self] at this
      exact congrArg Slot.entry this
    rw [registry_insert_history, hentry]
    exact (congrArg (Function.update · _ _) hw).trans (Function.update_idem _ _ _)
  rw [Prog.run_bind, hput]
  refine Leads.trans (leads_of_move hmove) ?_
  rw [← hregistry]
  exact hf _ hregistry

variable {p : PendingRequest}

section

variable (henv : s.env.Reliable)

include henv

theorem denyPending_leads (hcall : s.call = .deny req id) (hp : storedPending w.store id = some p)
    (hid : p.requestID = id) : RunLeads s store (denyPending s.core req id p) w := by
  have hentry : (registry w.store id).entry = some p := hp
  unfold denyPending
  split
  · exact runLeads_ret _
  rename_i hstatus
  have hpending := not_not.mp hstatus
  refine runLeads_timeNow ?_
  split
  · rename_i hlate
    refine runLeads_delete henv (.clear hentry ?_ ?_) (runLeads_ret _)
    · have : p.expiresAt < s.env.now := hlate
      simp [hcall, findsExpired, hpending, this]
    · simp [Clears, hcall]
  rename_i hlive
  have hlimit : s.env.now ≤ p.expiresAt := Int.not_lt.mp hlive
  have htimely : findsExpired s.env.now p s.call = false := by
    simp [hcall, findsExpired, hlimit]
  refine runLeads_bind (runLeads_of_reads (getApprovalRule_reads _)) ?_
  rw [run_getApprovalRule, exec_storageGet_snd]
  split
  · exact runLeads_ret _
  · exact runLeads_delete henv (.drop hentry htimely (by simp [hcall])) (runLeads_ret _)
  split
  · exact runLeads_ret _
  unfold RunLeads
  rw [Prog.run_bind]
  cases hvalue : ({ p with status := .denied } : PendingRequest).marshalJSON with
  | none =>
    rw [run_storePendingRequest_of_none hvalue]
    exact Leads.refl _
  | some value =>
    rw [run_storePendingRequest_of_some henv hvalue]
    have hput : registry (w.tick.put (pendingKey p.requestID) value).store =
        Function.update (registry w.store) id
          ⟨some { p with status := .denied }.normalize,
            (registry w.store id).record⟩ := by
      unfold World.put
      subst hid
      rw [registry_insert_pending, PendingRequest.decodeJSON_marshalJSON hvalue]
      rfl
    exact runLeads_record henv hid hput (.deny hcall hentry hpending hlimit)
      fun w' _ => Leads.refl _

theorem handleApprovalDeny_leads (hcall : s.call = .deny req id) (w : World)
    (hkeyed : Keyed w.store) : RunLeads s store (handleApprovalDeny s.core req id) w := by
  refine runLeads_getPendingRequest fun found hfound => ?_
  split
  · exact runLeads_ret _
  · exact runLeads_ret _
  · rename_i p
    have hp := hfound p rfl
    exact denyPending_leads henv hcall hp (hkeyed id p hp)

theorem storeHistory_leads (hid : p.requestID = id) {status : HistoryStatus} {by_ : String}
    {r : Registry} (hw : registry w.store = Function.update r id ⟨none, (r id).record⟩)
    (hmove : Move s store r id
      ⟨none, some (historyEntry p status s.env.now by_ (resolverName s.core by_)).normalize⟩)
    (reply : Reply) :
    Leads (Move s store) r (registry ((do
      storeHistory s.core p status by_
      return reply : VaultProg Reply).run (exec s.env) w).2.store) :=
  runLeads_record (f := fun _ => .ret reply) henv hid hw hmove fun _ _ => Leads.refl _

omit henv in
theorem registry_delete (w : World) (id : String) :
    registry (w.delete (pendingKey id)).store =
      Function.update (registry w.store) id ⟨none, (registry w.store id).record⟩ :=
  registry_erase_pending w.store id

theorem registry_delete_tombstone (w : World) (hid : p.requestID = id) :
    registry ((((storePendingRequest { p with credentialData := none }).run
        (exec s.env) w).2).delete (pendingKey id)).store =
      Function.update (registry w.store) id ⟨none, (registry w.store id).record⟩ := by
  rw [registry_delete]
  cases hvalue : ({ p with credentialData := none } : PendingRequest).marshalJSON with
  | none => rw [run_storePendingRequest_of_none hvalue]
  | some value =>
    rw [run_storePendingRequest_of_some henv hvalue]
    unfold World.put
    subst hid
    rw [registry_insert_pending, Function.update_idem, Function.update_self]
    rfl

theorem fetchPending_leads (hcall : s.call = .fetch req id) (hp : storedPending w.store id = some p)
    (hid : p.requestID = id) : RunLeads s store (fetchPending s.core req id p) w := by
  have hentry : (registry w.store id).entry = some p := hp
  unfold fetchPending
  split
  · rename_i hstatus
    refine runLeads_timeNow ?_
    split
    · rename_i hlate
      have hfound : findsExpired s.env.now p s.call = true := by
        have : p.expiresAt < s.env.now := hlate
        simp [hcall, findsExpired, hstatus, this]
      unfold RunLeads
      rw [Prog.run_bind, run_storageDelete henv]
      exact storeHistory_leads henv hid (registry_delete w id) (.expire hcall hentry hfound) _
    · exact runLeads_ret _
  · exact runLeads_ret _
  · rename_i hstatus
    split
    · exact runLeads_ret _
    have hsome : p.credentialData.isSome = true := by
      rwa [← Option.not_isNone, Bool.not_eq_true', ← Bool.not_eq_true]
    refine runLeads_timeNow ?_
    split
    · rename_i hlate
      have hfound : findsExpired s.env.now p s.call = true := by
        simp [hcall, findsExpired, hstatus, hsome, hlate]
      unfold RunLeads
      rw [Prog.run_bind, run_storageDelete henv]
      exact storeHistory_leads henv hid (registry_delete w id) (.expire hcall hentry hfound) _
    rename_i htimely
    unfold burnCredential RunLeads
    rw [Prog.run_bind, Prog.run_bind, run_storageDelete henv]
    refine storeHistory_leads henv hid (registry_delete_tombstone henv _ hid)
      (.retrieve hcall hentry hstatus ?_) _
    simpa [hcall, findsExpired, hstatus, hsome] using htimely
  · exact runLeads_ret _

theorem handleApprovalFetch_leads (hcall : s.call = .fetch req id) (w : World)
    (hkeyed : Keyed w.store) : RunLeads s store (handleApprovalFetch s.core req id) w := by
  refine runLeads_getPendingRequest fun found hfound => ?_
  split
  · exact runLeads_ret _
  · exact runLeads_ret _
  rename_i p
  have hp := hfound p rfl
  split
  · exact fetchPending_leads henv hcall hp (hkeyed id p hp)
  · exact runLeads_ret _

omit henv in
theorem mayRead_of_mayReadPending (core : Core) (env : Env) (req : Request) (p : PendingRequest)
    (w : World) (h : ((mayReadPending core req p).run (exec env) w).1 = true) :
    MayRead core w.store req p := by
  unfold mayReadPending at h
  split at h
  · rename_i hroot
    exact .inl hroot
  split at h
  · rename_i hown
    exact .inr (.inl hown)
  rw [Prog.run_bind, run_getApprovalRule] at h
  split at h
  · rename_i rule hrule
    exact .inr (.inr ⟨rule, storedRule_of_read hrule, h⟩)
  · cases h

theorem handleApprovalPendingRead_leads {id : String} (hcall : s.call = .pendingRead req id)
    (w : World) : RunLeads s w.store (handleApprovalPendingRead s.core req id) w := by
  refine runLeads_getPendingRequest fun found hfound => ?_
  split
  · exact runLeads_ret _
  · exact runLeads_ret _
  rename_i p
  have hentry : (registry w.store id).entry = some p := hfound p rfl
  have hreads := mayReadPending_reads s.core req p
  have hstore := hreads.run_store s.env w.tick
  refine runLeads_bind (runLeads_of_reads hreads) ?_
  split
  · rename_i hmay
    have hread : MayRead s.core w.store req p :=
      mayRead_of_mayReadPending s.core s.env req p w.tick hmay
    split
    · rename_i hstatus
      refine runLeads_timeNow ?_
      split
      · rename_i hlate
        refine runLeads_delete henv ?_ (runLeads_ret _)
        rw [hstore]
        refine .clear (p := p) ?_ ?_ ?_
        · exact hentry
        · have : p.expiresAt < s.env.now := hlate
          simp [hcall, findsExpired, hstatus, this]
        · simp [Clears, hcall, hread]
      · exact runLeads_ret _
    · exact runLeads_ret _
  · exact runLeads_ret _

theorem approvableRows_leads (hcall : s.call = .approvable req)
    (hcaller : callerIsRoot s.core req = true ∨ req.entityID ≠ "") (keys : List String)
    (w : World) : RunLeads s store (approvableRows s.core req keys) w := by
  induction keys generalizing w with
  | nil => exact runLeads_ret _
  | cons key rest ih =>
    refine runLeads_getPendingRequest fun found hfound => ?_
    split
    · rename_i p
      have hentry : (registry w.store key).entry = some p := hfound p rfl
      split
      · exact ih _
      rename_i hstatus
      refine runLeads_timeNow ?_
      split
      · rename_i hlate
        refine runLeads_delete henv (.clear hentry ?_ ?_) (ih _)
        · have : p.expiresAt < s.env.now := hlate
          simp [hcall, findsExpired, not_not.mp hstatus, this]
        · simpa only [Clears, hcall] using hcaller
      · refine runLeads_bind (runLeads_of_reads (mayApproveRow_reads s.core req p)) ?_
        exact runLeads_bind (ih _) (runLeads_ret _)
    · exact ih _

theorem handleApprovalApprovable_leads (hcall : s.call = .approvable req) (w : World) :
    RunLeads s store (handleApprovalApprovable s.core req) w := by
  unfold handleApprovalApprovable
  split
  · exact runLeads_ret _
  rename_i hanonymous
  have hcaller : callerIsRoot s.core req = true ∨ req.entityID ≠ "" := by
    rw [or_iff_not_imp_left]
    simpa using hanonymous
  refine runLeads_bind (runLeads_of_reads ⟨trivial, fun _ => trivial⟩) ?_
  split
  · exact runLeads_ret _
  · exact runLeads_bind (approvableRows_leads henv hcall hcaller _ _) (runLeads_ret _)

theorem myRequestRows_leads (hcall : s.call = .myRequests req) (hentity : req.entityID ≠ "")
    (keys : List String) (w : World) : RunLeads s store (myRequestRows req keys) w := by
  induction keys generalizing w with
  | nil => exact runLeads_ret _
  | cons key rest ih =>
    refine runLeads_getPendingRequest fun found hfound => ?_
    split
    · rename_i p
      have hentry : (registry w.store key).entry = some p := hfound p rfl
      split
      · exact ih _
      rename_i hown
      refine runLeads_timeNow ?_
      split
      · rename_i hlate
        refine runLeads_delete henv (.clear hentry ?_ ?_) (ih _)
        · rw [hcall]
          exact hlate
        · simpa only [Clears, hcall] using ⟨hentity, not_not.mp hown⟩
      · exact runLeads_bind (ih _) (runLeads_ret _)
    · exact ih _

theorem liveHistory_leads (keys : List String) (w : World) :
    RunLeads s store (liveHistory s.env.now keys) w := by
  induction keys generalizing w with
  | nil => exact runLeads_ret _
  | cons key rest ih =>
    have hget : (storageGet (historyKey key)).run (exec s.env) w =
        (.ok (w.store.lookup (historyKey key)), w.tick) := exec_storageGet henv _ w
    refine runLeads_bind (runLeads_of_reads ⟨nofun, fun _ => trivial⟩) ?_
    rw [hget]
    split
    · rename_i h hfound
      have hrecord : (registry w.store key).record = some h :=
        (decodeEntry_eq_some_iff _ _ _).mp hfound
      split
      · rename_i hold
        refine runLeads_bind ?_ ?_
        · unfold RunLeads
          rw [run_storageDelete henv]
          unfold World.delete
          rw [registry_erase_history]
          exact leads_of_move (.purge hrecord hold)
        · exact ih _
      · exact runLeads_bind (ih _) (runLeads_ret _)
    · exact ih _

theorem listAllHistoryEntries_leads (w : World) : RunLeads s store listAllHistoryEntries w := by
  refine runLeads_bind (runLeads_of_reads ⟨trivial, fun _ => trivial⟩) ?_
  split
  · exact runLeads_ret _
  · refine runLeads_timeNow ?_
    exact runLeads_bind (liveHistory_leads henv _ _) (runLeads_ret _)

theorem handleApprovalMyRequests_leads (hcall : s.call = .myRequests req) (w : World) :
    RunLeads s store (handleApprovalMyRequests req) w := by
  unfold handleApprovalMyRequests
  split
  · exact runLeads_ret _
  rename_i hentity
  refine runLeads_bind (runLeads_of_reads ⟨trivial, fun _ => trivial⟩) ?_
  split
  · exact runLeads_ret _
  refine runLeads_bind (myRequestRows_leads henv hcall hentity _ _) ?_
  refine runLeads_bind ?_ ?_
  · refine runLeads_bind (listAllHistoryEntries_leads henv _) ?_
    split <;> exact runLeads_ret _
  · split <;> exact runLeads_ret _

theorem handleApprovalHistory_leads (req : Request) (w : World) :
    RunLeads s store (handleApprovalHistory s.core req) w := by
  refine runLeads_bind (runLeads_of_reads (approverGate_reads s.core req)) ?_
  split
  · exact runLeads_ret _
  · refine runLeads_bind (listAllHistoryEntries_leads henv _) ?_
    split <;> exact runLeads_ret _

end

theorem Step.leads (s : Step) (henv : s.env.Reliable) (w : World) (hkeyed : Keyed w.store) :
    Leads (Move s w.store) (registry w.store) (registry (s.apply w).store) := by
  show RunLeads s w.store (s.call.prog s.core) w
  cases hcall : s.call with
  | ruleList => exact runLeads_of_reads handleApprovalRuleList_reads
  | ruleRead ruleID => exact runLeads_of_reads (handleApprovalRuleRead_reads _ _)
  | ruleWrite req ruleID fields => exact handleApprovalRuleWrite_leads henv req ruleID fields w
  | ruleDelete ruleID => exact handleApprovalRuleDelete_leads henv hcall w
  | requiresApproval path => exact runLeads_of_reads (handleApprovalRequiresApproval_reads path)
  | request bypass auth req => exact handleRequest_leads henv hcall w rfl
  | approve req id => exact handleApprovalApprove_leads hcall w hkeyed
  | deny req id => exact handleApprovalDeny_leads henv hcall w hkeyed
  | fetch req id => exact handleApprovalFetch_leads henv hcall w hkeyed
  | pendingList req => exact runLeads_of_reads (handleApprovalPendingList_reads _ _)
  | pendingRead req id => exact handleApprovalPendingRead_leads henv hcall w
  | approvable req => exact handleApprovalApprovable_leads henv hcall w
  | myRequests req => exact handleApprovalMyRequests_leads henv hcall w
  | history req => exact handleApprovalHistory_leads henv req w

theorem registry_finalWorld {K : Registry → Prop} {steps : List Step}
    (hreliable : ∀ s ∈ steps, s.env.Reliable) (hinit : K fun _ => {})
    (hmove : ∀ s ∈ steps, ∀ store r id slot, K r → Move s store r id slot →
      K (Function.update r id slot)) : K (registry (finalWorld steps).store) := by
  induction steps using List.reverseRecOn with
  | nil => exact hinit
  | append_singleton steps s ih =>
    have hs : s ∈ steps ++ [s] := List.mem_append_right _ (List.mem_singleton_self s)
    have hsteps : ∀ s' ∈ steps, s' ∈ steps ++ [s] := fun s' => List.mem_append_left _
    have hbefore := ih (fun s' hs' => hreliable s' (hsteps s' hs'))
      (fun s' hs' => hmove s' (hsteps s' hs'))
    rw [finalWorld_concat]
    exact (Step.leads s (hreliable s hs) _ (keyed_finalWorld steps)).keeps
      (hmove s hs _) hbefore

end VaultProofs.HandlerMoves
