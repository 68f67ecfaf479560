import VaultProofs.HandlerMoves

/-!
Calls on an entry by somebody who may not see it. Pending read and fetch decide before they look at
the entry; approve and deny first test status, time limit and rule.
-/

namespace VaultProofs.OutsiderCalls

open GoStrings JsonValues EffectPrograms ApprovalEntries VaultEffects ApprovalInterceptor
open ApprovalHandlers ApprovalEffects ListingHandlers ListingFootprints EntryRegistry HandlerMoves

/-- Two worlds that differ at most in the contents of one entry, with the same rule and
requester. -/
structure Variants (id : String) (w w' : World) (p p' : PendingRequest) : Prop where
  entry : storedPending w.store id = some p
  entry' : storedPending w'.store id = some p'
  ruleID : p'.ruleID = p.ruleID
  requester : p'.requesterEntityID = p.requesterEntityID
  storageOps : w'.storageOps = w.storageOps
  elsewhere : ∀ key, key ≠ pendingKey id → w'.store.lookup key = w.store.lookup key

def entryCalls (core : Core) (req : Request) (id : String) : List (VaultProg Reply) :=
  [handleApprovalPendingRead core req id, handleApprovalApprove core req id,
   handleApprovalDeny core req id, handleApprovalFetch core req id]

def LearnsNothing (core : Core) (env : Env) (req : Request) (id : String) (w w' : World) : Prop :=
  ∀ call ∈ entryCalls core req id,
    (call.run (exec env) w').1 = (call.run (exec env) w).1 ∧
    (call.run (exec env) w).2.store = w.store ∧ (call.run (exec env) w').2.store = w'.store

/-- Both entries have the same status, and if pending both are expired or neither is. -/
def SameStage (now : Time) (p p' : PendingRequest) : Prop :=
  p'.status = p.status ∧ (p.status = .pending → (p'.expiresAt < now ↔ p.expiresAt < now))

def Unread (env : Env) (w : World) (id : String) : Prop :=
  env.fails w.storageOps (.storageGet (pendingKey id)) = true

/-- Approve and deny remove the entry: it is expired or its rule is gone, and storage does not
refuse. -/
def Removes (env : Env) (w : World) (id : String) (p : PendingRequest) : Prop :=
  p.status = .pending ∧
    if p.expiresAt < env.now then
      env.fails (w.storageOps + 1) (.storageDelete (pendingKey id)) = false
    else
      env.fails (w.storageOps + 1) (.storageGet (configKey p.ruleID)) = false ∧
        w.store.lookup (configKey p.ruleID) = none ∧
        env.fails (w.storageOps + 2) (.storageDelete (pendingKey id)) = false

/-- What an approve or deny call learns of an entry before it asks who calls. -/
inductive Stage where
  | closed (status : Status)
  | expired
  | undecided

def stage (now : Time) (p : PendingRequest) : Stage :=
  if p.status ≠ .pending then .closed p.status
  else if p.expiresAt < now then .expired
  else .undecided

def turnedAway (core : Core) (id ruleID : String)
    (found : Except GoError (Option ApprovalRule)) : Stage → Reply
  | .closed status => notPendingReply core id status
  | .expired => expiredReply core id
  | .undecided =>
    match found with
    | .error e => failedReply e
    | .ok none => orphanedReply core ruleID
    | .ok (some _) => failedReply .permissionDenied

theorem stage_eq_iff {now : Time} {p p' : PendingRequest} :
    stage now p' = stage now p ↔ SameStage now p p' := by
  unfold stage SameStage
  by_cases hp : p.status = .pending
  · by_cases hp' : p'.status = .pending
    · by_cases hlate : p.expiresAt < now
      · by_cases hlate' : p'.expiresAt < now <;> simp [hp, hp', hlate, hlate']
      · by_cases hlate' : p'.expiresAt < now <;> simp [hp, hp', hlate, hlate']
    · by_cases hlate : p.expiresAt < now <;> simp [hp, hp', hlate]
  by_cases hp' : p'.status = .pending
  · by_cases hlate' : p'.expiresAt < now
    · simp [hp, hp', hlate', Ne.symm hp]
    · simp [hp, hp', hlate', Ne.symm hp]
  · simp [hp, hp']

section Replies

variable (core : Core) (id ruleID : String)

theorem name_injective : Function.Injective Status.name := by
  intro status status'
  cases status <;> cases status' <;> decide

theorem errorReply_inj {text text' : GoString} (h : errorReply text = errorReply text') :
    text = text' := by
  simpa [errorReply, dataReply] using h

theorem errorReply_ne_failedReply (text : GoString) (e : GoError) :
    errorReply text ≠ failedReply e := by
  simp [errorReply, dataReply, failedReply]

theorem notPendingReply_ne_expiredReply (status : Status) :
    notPendingReply core id status ≠ expiredReply core id := by
  intro h
  have htext := errorReply_inj h
  simp only [List.append_assoc, List.append_cancel_left_eq] at htext
  have hhead := congrArg (List.take 2) htext
  rw [List.take_append_of_le_length (by decide)] at hhead
  exact absurd hhead (by decide)

theorem requestText_ne_orphanedReply (text : GoString) :
    errorReply (ofString "request " ++ text) ≠ orphanedReply core ruleID := by
  intro h
  have htext := errorReply_inj h
  rw [List.append_assoc] at htext
  have hhead := congrArg (List.take 1) htext
  rw [List.take_append_of_le_length (by decide), List.take_append_of_le_length (by decide)] at hhead
  exact absurd hhead (by decide)

section

variable (found : Except GoError (Option ApprovalRule))

theorem requestText_ne_undecided (text : GoString) :
    errorReply (ofString "request " ++ text) ≠ turnedAway core id ruleID found .undecided := by
  cases found with
  | error e => exact errorReply_ne_failedReply _ _
  | ok rule =>
    cases rule with
    | none => exact requestText_ne_orphanedReply core ruleID text
    | some rule => exact errorReply_ne_failedReply _ _

theorem notPendingReply_ne_undecided (status : Status) :
    notPendingReply core id status ≠ turnedAway core id ruleID found .undecided := by
  unfold notPendingReply
  exact requestText_ne_undecided core id ruleID found _

theorem expiredReply_ne_undecided :
    expiredReply core id ≠ turnedAway core id ruleID found .undecided := by
  unfold expiredReply
  exact requestText_ne_undecided core id ruleID found _

theorem turnedAway_injective : Function.Injective (turnedAway core id ruleID found) := by
  intro before after h
  cases before with
  | closed status =>
    cases after with
    | closed status' =>
      have htext := errorReply_inj h
      simp only [List.append_cancel_left_eq, List.append_cancel_right_eq] at htext
      rw [name_injective (ofString_injective htext)]
    | expired => exact (notPendingReply_ne_expiredReply core id status h).elim
    | undecided => exact (notPendingReply_ne_undecided core id ruleID found status h).elim
  | expired =>
    cases after with
    | closed status' => exact (notPendingReply_ne_expiredReply core id status' h.symm).elim
    | expired => rfl
    | undecided => exact (expiredReply_ne_undecided core id ruleID found h).elim
  | undecided =>
    cases after with
    | closed status' =>
      exact (notPendingReply_ne_undecided core id ruleID found status' h.symm).elim
    | expired => exact (expiredReply_ne_undecided core id ruleID found h.symm).elim
    | undecided => rfl

end

end Replies

variable {core : Core} {env : Env} {req : Request} {id : String} {p : PendingRequest} {w : World}

/-- The world an approve or deny call of an outsider leaves, from the stage on. -/
def turnedAwayWorld (env : Env) (id ruleID : String) (w : World) : Stage → World
  | .closed _ => w
  | .expired => (exec env (.storageDelete (pendingKey id)) w).2
  | .undecided =>
    match (getApprovalRule ruleID).run (exec env) w with
    | (.ok none, w') => (exec env (.storageDelete (pendingKey id)) w').2
    | (_, w') => w'

def verdict (core : Core) (env : Env) (id : String) (p : PendingRequest) (w : World) :
    Reply × World :=
  (turnedAway core id p.ruleID ((getApprovalRule p.ruleID).run (exec env) w).1
      (stage env.now p), turnedAwayWorld env id p.ruleID w (stage env.now p))

section

variable (hout : ¬ MayRead core w.store req p)

include hout

theorem not_authorized {rule : ApprovalRule}
    (hrule : ((getApprovalRule p.ruleID).run (exec env) w).1 = .ok (some rule)) :
    approvalEntityIsAuthorized core req.entityID rule.authorizedApprovers = false := by
  have hstored : storedRule w.store p.ruleID = some rule := storedRule_of_read hrule
  exact Bool.eq_false_iff.mpr fun hauthorized => hout (.inr (.inr ⟨rule, hstored, hauthorized⟩))

theorem not_root : callerIsRoot core req = false :=
  Bool.eq_false_iff.mpr fun hroot => hout (.inl hroot)

omit hout in
theorem run_guarded {f : ApprovalRule → VaultProg Reply}
    (hf : ∀ rule, ((getApprovalRule p.ruleID).run (exec env) w).1 = .ok (some rule) →
      f rule = return failedReply .permissionDenied) :
    (guarded core id p f).run (exec env) w = verdict core env id p w := by
  unfold guarded verdict stage
  split
  · rfl
  rw [Prog.run_bind, run_timeNow]
  split
  · rfl
  rw [Prog.run_bind]
  simp only [turnedAway, turnedAwayWorld]
  generalize (getApprovalRule p.ruleID).run (exec env) w = found at hf ⊢
  obtain ⟨answer, w'⟩ := found
  cases answer with
  | error e => rfl
  | ok rule =>
    cases rule with
    | none => rfl
    | some rule =>
      simp only
      rw [hf rule rfl]
      rfl

theorem run_approvePending :
    (approvePending core req id p).run (exec env) w = verdict core env id p w := by
  refine run_guarded fun rule hrule => ?_
  simp [approveUnderRule, not_root hout, not_authorized hout hrule]

theorem run_denyPending :
    (denyPending core req id p).run (exec env) w = verdict core env id p w := by
  refine run_guarded fun rule hrule => ?_
  have hself : selfApproval req p = false := by
    refine Bool.eq_false_iff.mpr fun hself => hout (.inr (.inl ?_))
    simpa [selfApproval] using hself
  simp [not_root hout, not_authorized hout hrule, hself]

end

theorem run_read {f : Except GoError (Option PendingRequest) → VaultProg Reply}
    (hentry : storedPending w.store id = some p)
    (herror : ∀ e, f (.error e) = return failedReply e) :
    (getPendingRequest id >>= f).run (exec env) w =
      if env.fails w.storageOps (.storageGet (pendingKey id)) then
        (failedReply storageFailed, w.tick)
      else (f (.ok (some p))).run (exec env) w.tick := by
  rw [Prog.run_bind, run_getPendingRequest]
  simp only [exec]
  split
  · simp only [decodeEntry]
    rw [herror]
    rfl
  · rw [(decodeEntry_eq_some_iff PendingRequest.decodeJSON _ p).mpr hentry]

theorem store_delete_iff {key : Key} {blob : Blob} (hblob : w.store.lookup key = some blob) :
    (exec env (.storageDelete key) w).2.store = w.store ↔
      env.fails w.storageOps (.storageDelete key) = true := by
  simp only [exec]
  split
  · rename_i hfails
    exact iff_of_true rfl hfails
  rename_i hfails
  refine iff_of_false (fun hstore => ?_) hfails
  have hgone : w.store.lookup key = none := hstore ▸ AList.lookup_erase _ _
  rw [hblob] at hgone
  cases hgone

theorem run_getApprovalRule_tick (env : Env) (ruleID : String) (w : World) :
    (getApprovalRule ruleID).run (exec env) w.tick =
      (if env.fails (w.storageOps + 1) (.storageGet (configKey ruleID)) then .error storageFailed
        else decodeEntry ApprovalRule.decodeJSON (.ok (w.store.lookup (configKey ruleID))),
        w.tick.tick) := by
  rw [run_getApprovalRule, exec_storageGet_snd]
  cases hread : env.fails (w.storageOps + 1) (.storageGet (configKey ruleID)) with
  | true => simp [exec, World.tick, hread, decodeEntry]
  | false => simp [exec, World.tick, hread]

section

variable (hentry : storedPending w.store id = some p)

include hentry

theorem store_undecided_iff :
    (turnedAwayWorld env id p.ruleID w.tick .undecided).store = w.store ↔
      ¬ (env.fails (w.storageOps + 1) (.storageGet (configKey p.ruleID)) = false ∧
        w.store.lookup (configKey p.ruleID) = none ∧
        env.fails (w.storageOps + 2) (.storageDelete (pendingKey id)) = false) := by
  obtain ⟨blob, hblob, -⟩ := Option.bind_eq_some_iff.mp hentry
  simp only [turnedAwayWorld, run_getApprovalRule_tick]
  cases hread : env.fails (w.storageOps + 1) (.storageGet (configKey p.ruleID)) with
  | true => exact iff_of_true rfl (by simp)
  | false =>
    cases hrule : w.store.lookup (configKey p.ruleID) with
    | none =>
      simp only [Bool.false_eq_true, if_false, decodeEntry, true_and, Bool.not_eq_false]
      exact store_delete_iff hblob
    | some found =>
      refine iff_of_true ?_ (by simp)
      simp only [Bool.false_eq_true, if_false, decodeEntry]
      cases found.decode ApprovalRule.decodeJSON with
      | none | some rule => rfl

theorem store_verdict_iff :
    (verdict core env id p w.tick).2.store = w.store ↔ ¬ Removes env w id p := by
  obtain ⟨blob, hblob, -⟩ := Option.bind_eq_some_iff.mp hentry
  unfold verdict stage Removes
  by_cases hstatus : p.status = .pending
  · by_cases hlate : p.expiresAt < env.now
    · simp only [hstatus, ne_eq, not_true, if_false, if_pos hlate, true_and, Bool.not_eq_false]
      exact store_delete_iff hblob
    · simp only [hstatus, ne_eq, not_true, if_false, if_neg hlate, true_and]
      exact store_undecided_iff hentry
  · simp [hstatus, turnedAwayWorld, World.tick]

def gatedVerdict (core : Core) (env : Env) (id : String) (p : PendingRequest) (w : World) :
    Reply × World :=
  if env.fails w.storageOps (.storageGet (pendingKey id)) then (failedReply storageFailed, w.tick)
  else verdict core env id p w.tick

omit hentry in
theorem gatedVerdict_of_unread (hread : Unread env w id) :
    gatedVerdict core env id p w = (failedReply storageFailed, w.tick) :=
  if_pos hread

omit hentry in
theorem gatedVerdict_of_read (hread : ¬ Unread env w id) :
    gatedVerdict core env id p w = verdict core env id p w.tick :=
  if_neg hread

theorem run_approve_outsider (hout : ¬ MayRead core w.store req p) :
    (handleApprovalApprove core req id).run (exec env) w = gatedVerdict core env id p w := by
  refine (run_read hentry fun e => rfl).trans ?_
  unfold gatedVerdict
  rw [← run_approvePending (w := w.tick) hout]

theorem run_deny_outsider (hout : ¬ MayRead core w.store req p) :
    (handleApprovalDeny core req id).run (exec env) w = gatedVerdict core env id p w := by
  refine (run_read hentry fun e => rfl).trans ?_
  unfold gatedVerdict
  rw [← run_denyPending (w := w.tick) hout]

theorem run_fetch_outsider (hout : ¬ MayRead core w.store req p) :
    (handleApprovalFetch core req id).run (exec env) w =
      (if env.fails w.storageOps (.storageGet (pendingKey id)) then failedReply storageFailed
        else failedReply .permissionDenied, w.tick) := by
  have hfetch : mayFetch core req p = false := by
    unfold mayFetch
    split
    · exact not_root hout
    rename_i hrequester
    refine Bool.eq_false_iff.mpr fun hself => hout (.inr (.inl ?_))
    have hsame := eq_of_beq hself
    exact ⟨hsame ▸ hrequester, hsame⟩
  refine (run_read hentry fun e => rfl).trans ?_
  simp only [hfetch, Bool.false_eq_true, if_false]
  split <;> rfl

end

theorem run_pendingRead_outsider (env : Env) (hentry : storedPending w.store id = some p)
    (hout : ¬ MayRead core w.store req p) :
    ((handleApprovalPendingRead core req id).run (exec env) w).1 =
        (if env.fails w.storageOps (.storageGet (pendingKey id)) then failedReply storageFailed
          else failedReply .permissionDenied) ∧
      ((handleApprovalPendingRead core req id).run (exec env) w).2.store = w.store := by
  have hrefused : ((mayReadPending core req p).run (exec env) w.tick).1 = false :=
    Bool.eq_false_iff.mpr fun h => hout (mayRead_of_mayReadPending core env req p w.tick h)
  have hrun : (handleApprovalPendingRead core req id).run (exec env) w =
      if env.fails w.storageOps (.storageGet (pendingKey id)) then
        (failedReply storageFailed, w.tick)
      else (failedReply .permissionDenied,
        ((mayReadPending core req p).run (exec env) w.tick).2) := by
    refine (run_read hentry fun e => rfl).trans ?_
    rw [Prog.run_bind, hrefused]
    rfl
  rw [hrun]
  split
  · exact ⟨rfl, rfl⟩
  · exact ⟨rfl, (mayReadPending_reads core req p).run_store env w.tick⟩

variable {w' : World} {p' : PendingRequest}

section

variable (h : Variants id w w' p p')

include h

theorem Variants.lookup_rule :
    w'.store.lookup (configKey p'.ruleID) = w.store.lookup (configKey p.ruleID) := by
  rw [h.ruleID]
  exact h.elsewhere _ nofun

theorem Variants.mayRead (hread : MayRead core w'.store req p') : MayRead core w.store req p := by
  rcases hread with hroot | ⟨hne, hself⟩ | ⟨rule, hrule, hauthorized⟩
  · exact .inl hroot
  · exact .inr (.inl ⟨hne, hself.trans h.requester⟩)
  · refine .inr (.inr ⟨rule, ?_, hauthorized⟩)
    rwa [storedRule, h.lookup_rule] at hrule

theorem Variants.verdict_fst :
    (verdict core env id p' w'.tick).1 =
      turnedAway core id p.ruleID ((getApprovalRule p.ruleID).run (exec env) w.tick).1
        (stage env.now p') := by
  unfold verdict
  rw [run_getApprovalRule_tick, run_getApprovalRule_tick, h.storageOps, h.lookup_rule, h.ruleID]

theorem Variants.removes_iff (hsame : SameStage env.now p p') :
    Removes env w' id p' ↔ Removes env w id p := by
  unfold Removes
  rw [hsame.1, h.storageOps, h.lookup_rule, h.ruleID]
  refine and_congr_right fun hstatus => ?_
  by_cases hlate : p.expiresAt < env.now
  · rw [if_pos hlate, if_pos ((hsame.2 hstatus).mpr hlate)]
  · rw [if_neg hlate, if_neg fun hlate' => hlate ((hsame.2 hstatus).mp hlate')]

theorem Variants.unread_iff : Unread env w' id ↔ Unread env w id := by
  unfold Unread
  rw [h.storageOps]

theorem Variants.gatedVerdict_iff (core : Core) :
    ((gatedVerdict core env id p' w').1 = (gatedVerdict core env id p w).1 ∧
      (gatedVerdict core env id p w).2.store = w.store ∧
      (gatedVerdict core env id p' w').2.store = w'.store) ↔
    (Unread env w id ∨ (SameStage env.now p p' ∧ ¬ Removes env w id p)) := by
  by_cases hread : Unread env w id
  · rw [gatedVerdict_of_unread hread, gatedVerdict_of_unread (h.unread_iff.mpr hread)]
    exact iff_of_true ⟨rfl, rfl, rfl⟩ (.inl hread)
  rw [gatedVerdict_of_read hread, gatedVerdict_of_read (h.unread_iff.not.mpr hread),
    store_verdict_iff h.entry, store_verdict_iff h.entry', h.verdict_fst, verdict,
    (turnedAway_injective core id p.ruleID _).eq_iff, stage_eq_iff, or_iff_right hread]
  constructor
  · rintro ⟨hsame, hkept, -⟩
    exact ⟨hsame, hkept⟩
  · rintro ⟨hsame, hkept⟩
    exact ⟨hsame, hkept, (h.removes_iff hsame).not.mpr hkept⟩

end

/-- A caller who may not see the entry learns nothing from it and changes nothing iff
the entry cannot be read, or the two entries are at the same stage and approve and
deny do not remove them. -/
theorem learnsNothing_iff (h : Variants id w w' p p') (hout : ¬ MayRead core w.store req p) :
    LearnsNothing core env req id w w' ↔
      Unread env w id ∨ (SameStage env.now p p' ∧ ¬ Removes env w id p) := by
  have hout' : ¬ MayRead core w'.store req p' := fun hread => hout (h.mayRead hread)
  rw [← h.gatedVerdict_iff core]
  constructor
  · intro hlearns
    have hcall := hlearns (handleApprovalApprove core req id) (by simp [entryCalls])
    rwa [run_approve_outsider h.entry hout, run_approve_outsider h.entry' hout'] at hcall
  intro hquiet call hcall
  simp only [entryCalls, List.mem_cons, List.not_mem_nil, or_false] at hcall
  rcases hcall with rfl | rfl | rfl | rfl
  · obtain ⟨hreply, hstore⟩ := run_pendingRead_outsider env h.entry hout
    obtain ⟨hreply', hstore'⟩ := run_pendingRead_outsider env h.entry' hout'
    rw [hreply, hreply', h.storageOps]
    exact ⟨rfl, hstore, hstore'⟩
  · rw [run_approve_outsider h.entry hout, run_approve_outsider h.entry' hout']
    exact hquiet
  · rw [run_deny_outsider h.entry hout, run_deny_outsider h.entry' hout']
    exact hquiet
  · rw [run_fetch_outsider h.entry hout, run_fetch_outsider h.entry' hout', h.storageOps]
    exact ⟨rfl, rfl, rfl⟩

def outsider : Request := { entityID := "mallory" }

def entryWorld (p : PendingRequest) : World where
  store := ((∅ : Store).insert (configKey "db") (.json (sampleRule 1).marshalJSON)).insert
    (pendingKey "r1") (PendingRequest.blob p)

def deniedEntry : PendingRequest :=
  { sampleEntry with status := .denied }

def votedEntry : PendingRequest :=
  { sampleEntry with approvals := [⟨"alice", 1⟩] }

theorem lookup_entryWorld (p p' : PendingRequest) {key : Key} (hkey : key ≠ pendingKey "r1") :
    (entryWorld p').store.lookup key = (entryWorld p).store.lookup key := by
  unfold entryWorld
  rw [AList.lookup_insert_ne hkey, AList.lookup_insert_ne hkey]

theorem variants_voted : Variants "r1" (entryWorld sampleEntry) (entryWorld votedEntry)
    sampleEntry.normalize votedEntry.normalize :=
  ⟨rfl, rfl, rfl, rfl, rfl, fun _ hkey => lookup_entryWorld _ _ hkey⟩

theorem outsider_excluded :
    ¬ MayRead sampleCore (entryWorld sampleEntry).store outsider sampleEntry.normalize := by
  rintro (hroot | ⟨-, hself⟩ | ⟨rule, hrule, hauthorized⟩)
  · exact absurd hroot (by decide)
  · exact absurd hself (by decide)
  have hstored : storedRule (entryWorld sampleEntry).store "db" =
      some (sampleRule 1).normalize := rfl
  obtain rfl := Option.some.inj (hstored.symm.trans hrule)
  exact absurd hauthorized (by decide)

/-- An approve call tells an outsider that the request is denied, and removes it once it
has expired. -/
theorem outsider_learns_and_removes :
    Variants "r1" (entryWorld sampleEntry) (entryWorld deniedEntry) sampleEntry.normalize
      deniedEntry.normalize ∧
    ¬ MayRead sampleCore (entryWorld sampleEntry).store outsider sampleEntry.normalize ∧
    ¬ LearnsNothing sampleCore sampleEnv outsider "r1" (entryWorld sampleEntry)
      (entryWorld deniedEntry) ∧
    ((handleApprovalApprove sampleCore outsider "r1").run (exec sampleEnv)
      (entryWorld deniedEntry)).1 = notPendingReply sampleCore "r1" .denied ∧
    ((handleApprovalApprove sampleCore outsider "r1").run
      (exec { sampleEnv with now := 2 * hour }) (entryWorld sampleEntry)).2.store.lookup
        (pendingKey "r1") = none := by
  refine ⟨⟨rfl, rfl, rfl, rfl, rfl, fun _ hkey => lookup_entryWorld _ _ hkey⟩, outsider_excluded,
    fun hlearns => ?_, rfl, rfl⟩
  have hreply := (hlearns (handleApprovalApprove sampleCore outsider "r1")
    (by simp [entryCalls])).1
  exact absurd (congrArg (fun reply => reply.err.isSome) hreply) (by decide)

theorem learnsNothing_voted :
    LearnsNothing sampleCore sampleEnv outsider "r1" (entryWorld sampleEntry)
      (entryWorld votedEntry) := by
  refine (learnsNothing_iff variants_voted outsider_excluded).mpr (.inr ⟨⟨rfl, ?_⟩, ?_⟩)
  · exact fun _ => Iff.rfl
  · rintro ⟨-, hremoves⟩
    cases hremoves.2.1

end VaultProofs.OutsiderCalls
