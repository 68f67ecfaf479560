import VaultProofs.EntryRegistry

/-!
Every call with reliable storage leads from one registry to the next by the moves that
`EntryRegistry` lists for it.
-/

namespace VaultProofs.RegistryMoves

open GoStrings JsonValues EffectPrograms KeyedMoves ApprovalEntries VaultEffects
open ApprovalInterceptor EffectFootprints RequestRouting ApprovalEffects RuleHandlers ApprovalRuns
open EntryRegistry

/-- The run of the program, within the call of `s` on `store`, is a sequence of moves. -/
def RunLeads {α : Type} (s : Step) (store : Store) (p : VaultProg α) (w : World) : Prop :=
  Leads (Move s store) (registry w.store) (registry (p.run (exec s.env) w).2.store)

variable {α β : Type} {s : Step} {store : Store} {w : World}

theorem runLeads_ret (value : α) : RunLeads s store (.ret value) w := Leads.refl _

variable {p : VaultProg α}

theorem runLeads_bind {f : α → VaultProg β} (hp : RunLeads s store p w)
    (hf : RunLeads s store (f (p.run (exec s.env) w).1) (p.run (exec s.env) w).2) :
    RunLeads s store (p >>= f) w := by
  unfold RunLeads at hf ⊢
  rw [Prog.run_bind]
  exact hp.trans hf

theorem runLeads_of_store_eq (h : (p.run (exec s.env) w).2.store = w.store) :
    RunLeads s store p w := by
  unfold RunLeads
  rw [h]
  exact Leads.refl _

theorem runLeads_of_reads (hp : ReadsOnly p) : RunLeads s store p w :=
  runLeads_of_store_eq (hp.run_store s.env w)

theorem runLeads_getPendingRequest {id : String}
    {f : Except GoError (Option PendingRequest) → VaultProg α}
    (hf : ∀ found, (∀ p, found = .ok (some p) → storedPending w.store id = some p) →
      RunLeads s store (f found) w.tick) :
    RunLeads s store (getPendingRequest id >>= f) w := by
  unfold RunLeads
  rw [Prog.run_bind, run_getPendingRequest, exec_storageGet_snd]
  exact hf _ fun p hp => storedPending_of_read hp

theorem runLeads_timeNow {f : Time → VaultProg α} (hf : RunLeads s store (f s.env.now) w) :
    RunLeads s store (timeNow >>= f) w :=
  runLeads_bind (runLeads_of_store_eq rfl) hf

theorem runLeads_delete (henv : s.env.Reliable) {id : String}
    {f : Except GoError Unit → VaultProg α}
    (hmove : Move s store (registry w.store) id ⟨none, storedHistory w.store id⟩)
    (hf : RunLeads s store (f (.ok ())) (w.delete (pendingKey id))) :
    RunLeads s store (storageDelete (pendingKey id) >>= f) w := by
  refine runLeads_bind ?_ ?_
  · unfold RunLeads
    rw [run_storageDelete henv]
    unfold World.delete
    rw [registry_erase_pending]
    exact leads_of_move hmove
  · rw [run_storageDelete henv]
    exact hf

theorem sweepKeys_leads (henv : s.env.Reliable) {ruleID : String}
    (hcall : s.call = .ruleDelete ruleID) (keys : List String) (w : World) :
    RunLeads s store (sweepKeys ruleID keys) w := by
  induction keys generalizing w with
  | nil => exact runLeads_ret ()
  | cons key rest ih =>
    refine runLeads_getPendingRequest fun found hfound => ?_
    split
    · rename_i p
      have hentry : (registry w.store key).entry = some p := hfound p rfl
      split
      · refine runLeads_delete henv (.drop hentry ?_ ?_) (ih _)
        · rw [hcall]
          rfl
        · simp [hcall]
      · exact ih _
    · exact ih _

theorem handleApprovalRuleDelete_leads (henv : s.env.Reliable) {ruleID : String}
    (hcall : s.call = .ruleDelete ruleID) (w : World) :
    RunLeads s store (handleApprovalRuleDelete ruleID) w := by
  have hsweep : RunLeads s store (sweepPendingRequestsByRule ruleID) w := by
    refine runLeads_bind (runLeads_of_reads ⟨trivial, fun _ => trivial⟩) ?_
    split
    · exact runLeads_ret _
    · exact runLeads_bind (sweepKeys_leads henv hcall _ _) (runLeads_ret _)
  refine runLeads_bind hsweep ?_
  refine runLeads_bind ?_ ?_
  · unfold RunLeads
    rw [run_storageDelete henv]
    unfold World.delete
    rw [registry_erase_config]
    exact Leads.refl _
  · split <;> exact runLeads_ret _

theorem handleApprovalRuleWrite_leads (henv : s.env.Reliable) (req : Request) (ruleID : String)
    (fields : RuleFields) (w : World) :
    RunLeads s store (handleApprovalRuleWrite s.core req ruleID fields) w := by
  unfold handleApprovalRuleWrite
  split
  · exact runLeads_ret _
  refine runLeads_bind (runLeads_of_reads (getApprovalRule_reads ruleID)) ?_
  split
  · exact runLeads_ret _
  split
  · exact runLeads_ret _
  refine runLeads_bind ?_ ?_
  · unfold RunLeads putApprovalRule
    have hput := exec_storagePut henv
    unfold storagePut
    simp only [Prog.perform, Prog.run_call, hput, Prog.run_ret]
    unfold World.put
    rw [registry_insert_config]
    exact Leads.refl _
  · split <;> exact runLeads_ret _

/-- What the guard leaves: some entries are gone, and if it does not block, there is no live rival
under the keys it has visited. -/
structure Scanned (s : Step) (store : Store) (req : Request) (keys : List String) (w : World)
    (result : Option Reply × World) : Prop where
  leads : Leads (Move s store) (registry w.store) (registry result.2.store)
  kept : ∀ id p, storedPending result.2.store id = some p → storedPending w.store id = some p
  alone : result.1 = none → ∀ key ∈ keys, ∀ p, storedPending result.2.store key = some p →
    Rivals req p → ¬ Live p

variable {req : Request}

theorem Scanned.blocked {keys : List String} (reply : Reply) :
    Scanned s store req keys w (some reply, w.tick) :=
  ⟨Leads.refl _, fun _ _ h => h, nofun⟩

theorem Scanned.skip {key : String} {rest : List String} {result : Option Reply × World}
    (hkey : ∀ p, storedPending w.store key = some p → Rivals req p → ¬ Live p)
    (h : Scanned s store req rest w.tick result) :
    Scanned s store req (key :: rest) w result where
  leads := h.leads
  kept := h.kept
  alone hnone key' hmem p hp := by
    rcases List.mem_cons.mp hmem with rfl | hrest
    · exact hkey p (h.kept _ _ hp)
    · exact h.alone hnone key' hrest p hp

theorem Scanned.remove {key : String} {rest : List String} {result : Option Reply × World}
    (hmove : Move s store (registry w.store) key ⟨none, storedHistory w.store key⟩)
    (h : Scanned s store req rest (w.tick.delete (pendingKey key)) result) :
    Scanned s store req (key :: rest) w result := by
  have hgone : storedPending (w.tick.delete (pendingKey key)).store key = none :=
    storedPending_erase_self _ _
  refine ⟨?_, ?_, ?_⟩
  · refine Leads.trans (leads_of_move hmove) ?_
    rw [← registry_erase_pending]
    exact h.leads
  · intro id p hp
    have hp' := h.kept id p hp
    by_cases hid : id = key
    · subst hid
      rw [hgone] at hp'
      cases hp'
    · rwa [World.delete, storedPending_erase_of_ne _ _ (pendingKey_ne (Ne.symm hid))] at hp'
  intro hnone key' hmem p hp
  rcases List.mem_cons.mp hmem with rfl | hrest
  · have hp' := h.kept _ _ hp
    rw [hgone] at hp'
    cases hp'
  · exact h.alone hnone key' hrest p hp

theorem move_of_stale {r : Registry} {id : String} {p : PendingRequest}
    (hentry : (r id).entry = some p) (hclears : Clears s store id p) :
    Move s store r id ⟨none, (r id).record⟩ := by
  cases hlate : findsExpired s.env.now p s.call with
  | true => exact .clear hentry hlate hclears
  | false =>
    refine .drop hentry hlate ?_
    intro req id' hcall
    rw [Clears, hcall] at hclears
    exact hclears

theorem scanActiveRequests_scanned (henv : s.env.Reliable)
    (hclears : ∀ id p, Rivals req p → Clears s store id p) (keys : List String) (w : World) :
    Scanned s store req keys w ((scanActiveRequests s.core req keys).run (exec s.env) w) := by
  induction keys generalizing w with
  | nil => exact ⟨Leads.refl _, fun _ _ h => h, nofun⟩
  | cons key rest ih =>
    unfold scanActiveRequests
    rw [Prog.run_bind, run_getPendingRequest, exec_storageGet henv]
    split
    · rename_i p hfound
      have hp : storedPending w.store key = some p := (decodeEntry_eq_some_iff _ _ _).mp hfound
      have hentry : (registry w.store key).entry = some p := hp
      have honly : ∀ {Q : PendingRequest → Prop}, Q p →
          ∀ p', storedPending w.store key = some p' → Q p' := by
        intro Q hQ p' hp'
        rw [hp] at hp'
        cases hp'
        exact hQ
      split
      · rename_i hother
        refine Scanned.skip (honly fun hrival _ => ?_) (ih _)
        rcases hother with h | h
        · exact h hrival.1
        · exact h hrival.2
      rename_i hsame
      have hrival : Rivals req p := by simpa [Rivals, not_or] using hsame
      have hmove := move_of_stale hentry (hclears key p hrival)
      split
      · rw [Prog.run_bind, run_timeNow]
        split
        · exact .blocked _
        · rw [Prog.run_bind, run_storageDelete henv]
          exact Scanned.remove hmove (ih _)
      · rw [Prog.run_bind, run_timeNow]
        split
        · exact .blocked _
        · rw [Prog.run_bind, run_storageDelete henv]
          exact Scanned.remove hmove (ih _)
      rename_i hpending happroved
      refine Scanned.skip (honly fun _ hlive => ?_) (ih _)
      rcases hlive with h | h
      · exact hpending h
      · exact happroved h
    · rename_i hfound
      refine Scanned.skip (fun p hp _ => ?_) (ih _)
      exact (hfound p ((decodeEntry_eq_some_iff _ _ _).mpr hp)).elim

variable {bypass : Bool} {auth : Option (List String)}

theorem parkRequest_leads (henv : s.env.Reliable) (hcall : s.call = .request bypass auth req)
    (rule : ApprovalRule) (w : World)
    (halone : req.entityID ≠ "" →
      ∀ id p, storedPending w.store id = some p → Rivals req p → ¬ Live p) :
    RunLeads s store (parkRequest req rule) w := by
  refine runLeads_bind (runLeads_of_store_eq rfl) ?_
  rw [run_generateUUID]
  cases huuid : s.env.uuid with
  | error e => exact runLeads_ret _
  | ok id =>
    refine runLeads_timeNow (runLeads_bind ?_ ?_)
    · cases hvalue : (parkedRequest req rule id s.env.now).marshalJSON with
      | none =>
        apply runLeads_of_store_eq
        rw [run_storePendingRequest_of_none hvalue]
      | some value =>
        unfold RunLeads
        rw [run_storePendingRequest_of_some henv hvalue]
        unfold World.put
        rw [registry_insert_pending, PendingRequest.decodeJSON_marshalJSON hvalue]
        exact leads_of_move (.park hcall huuid halone)
    · split <;> exact runLeads_ret _

theorem storedRule_of_findMatchingRule (env : Env) (path : GoString) {rule : ApprovalRule}
    (keys : List String) (w : World)
    (h : ((findMatchingRule path keys).run (exec env) w).1 = some rule) :
    ∃ ruleID, storedRule w.store ruleID = some rule ∧ approvalRuleMatchesPath rule path = true := by
  induction keys generalizing w with
  | nil => cases h
  | cons key rest ih =>
    unfold findMatchingRule at h
    rw [Prog.run_bind, run_getApprovalRule, exec_storageGet_snd] at h
    split at h
    · rename_i found hfound
      split at h
      · rename_i hmatch
        cases h
        exact ⟨key, storedRule_of_read hfound, hmatch⟩
      · exact ih w.tick h
    · exact ih w.tick h

theorem parkUnlessActive_leads (henv : s.env.Reliable) (hcall : s.call = .request false auth req)
    (hcovered : Covered store auth req) (rule : ApprovalRule) (w : World) :
    RunLeads s store (parkUnlessActive s.core req rule) w := by
  unfold parkUnlessActive
  split
  · rename_i hentity
    have hclears : ∀ id p, Rivals req p → Clears s store id p := by
      intro id p hrival
      unfold Clears
      rw [hcall]
      exact ⟨rfl, hcovered, hentity, hrival⟩
    have hlist : (checkActiveApprovalRequest s.core req).run (exec s.env) w =
        (scanActiveRequests s.core req
          (s.env.listOrder (folderNames w.store .pending))).run (exec s.env) w.tick := by
      have hanswer : (storageList .pending).run (exec s.env) w = _ :=
        exec_storageList henv .pending w
      rw [checkActiveApprovalRequest, Prog.run_bind, hanswer]
    have hscan := scanActiveRequests_scanned henv hclears
      (s.env.listOrder (folderNames w.store .pending)) w.tick
    rw [← hlist] at hscan
    refine runLeads_bind hscan.leads ?_
    split
    · exact runLeads_ret _
    rename_i hnone
    refine parkRequest_leads henv hcall rule _ fun _ id p hp => ?_
    refine hscan.alone hnone id ?_ p hp
    exact (s.env.listOrder_perm _).mem_iff.mpr (mem_folderNames (hscan.kept id p hp))
  · rename_i hentity
    exact parkRequest_leads henv hcall rule w fun hne => (hentity hne).elim

theorem checkNeedsApproval_leads (henv : s.env.Reliable) (hcall : s.call = .request false auth req)
    (w : World) (hstore : w.store = store) :
    RunLeads s store (checkNeedsApproval s.core req auth) w := by
  unfold checkNeedsApproval
  split
  · exact runLeads_ret _
  rename_i hexempt
  split
  · exact runLeads_ret _
  rename_i hoperation
  split
  · exact runLeads_ret _
  rename_i hroot
  refine runLeads_bind (runLeads_of_reads ⟨trivial, fun _ => trivial⟩) ?_
  split
  · exact runLeads_ret _
  refine runLeads_bind (runLeads_of_reads (findMatchingRule_reads _ _)) ?_
  split
  · exact runLeads_ret _
  rename_i rule hrule
  have hcovered : Covered store auth req := by
    refine ⟨by simpa using hexempt, by simpa using hoperation, by simpa using hroot, ?_⟩
    obtain ⟨ruleID, hstored, hmatch⟩ :=
      storedRule_of_findMatchingRule s.env req.path _ _ hrule
    refine ⟨ruleID, rule, ?_, hmatch⟩
    rw [← hstore, ← hstored]
    exact congrArg (storedRule · ruleID)
      (congrArg World.store (exec_storageList_snd s.env .config w)).symm
  exact parkUnlessActive_leads henv hcall hcovered rule _

theorem interceptOrRoute_leads (henv : s.env.Reliable) (hcall : s.call = .request bypass auth req)
    (w : World) (hstore : w.store = store) :
    RunLeads s store (interceptOrRoute s.core bypass auth req) w := by
  cases bypass with
  | true => exact runLeads_of_store_eq (routeRequest_store s.core s.env req w)
  | false =>
    refine runLeads_bind (checkNeedsApproval_leads henv hcall w hstore) ?_
    split
    · exact runLeads_ret _
    · exact runLeads_of_store_eq (routeRequest_store s.core s.env req _)

theorem handleRequest_leads (henv : s.env.Reliable) (hcall : s.call = .request bypass auth req)
    (w : World) (hstore : w.store = store) :
    RunLeads s store (handleRequest s.core bypass auth req) w := by
  unfold handleRequest
  split
  · rename_i hrecover
    refine runLeads_bind (runLeads_of_store_eq rfl) ?_
    split
    · exact runLeads_ret _
    · exact runLeads_ret _
    split
    · exact runLeads_ret _
    · apply runLeads_of_store_eq
      unfold interceptOrRoute
      rw [checkNeedsApproval_recover _ _ (by exact hrecover)]
      split <;> exact routeRequest_store _ _ _ _
  · exact interceptOrRoute_leads henv hcall w hstore

end VaultProofs.RegistryMoves
