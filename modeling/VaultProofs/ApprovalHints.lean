import VaultProofs.ActiveRequests
import VaultProofs.InterceptionCompleteness

/-!
The hint that a path requires approval. It scans the rules as the interceptor does, but knows no
exempt paths and refuses the empty one.
-/

namespace VaultProofs.ApprovalHints

open GoStrings JsonValues EffectPrograms ApprovalEntries VaultEffects ApprovalInterceptor
open RuleHandlers EntryRegistry ActiveRequests InterceptionCompleteness

def Hints (env : Env) (w : World) (path : GoString) (ruleID : String) : Prop :=
  ((handleApprovalRequiresApproval path).run (exec env) w).1 =
    dataReply [(ofString "requires_approval", .bool true), (ofString "rule_id", textValue ruleID)]

/-- The interceptor keeps the request and stores an entry for it under the rule. -/
def Parks (core : Core) (env : Env) (w : World) (auth : Option (List String)) (req : Request)
    (ruleID : String) : Prop :=
  let result := (checkNeedsApproval core req auth).run (exec env) w
  result.1.intercepted = true ∧ ∃ id rule, env.uuid = .ok id ∧ rule.ruleID = ruleID ∧
    storedPending result.2.store id = some (parkedRequest req rule id env.now).normalize

/-- There is an ID for the entry, and the request can be encoded. -/
def Parkable (env : Env) (req : Request) : Prop :=
  (∃ id, env.uuid = .ok id) ∧ marshalMap req.data ≠ none

/-- No entry of the requester for the path is active. -/
def Unengaged (now : Time) (store : Store) (req : Request) : Prop :=
  ∀ id p, storedPending store id = some p → Rivals req p → ¬ Active now p

variable {core : Core} {env : Env} {w : World} {auth : Option (List String)} {req : Request}

def matching (env : Env) (w : World) (path : GoString) : Option ApprovalRule :=
  ((findMatchingRule path (env.listOrder (folderNames w.store .config))).run (exec env) w.tick).1

section

variable (henv : env.Reliable)

include henv

theorem isSome_matching {path : GoString} : (matching env w path).isSome = true ↔
    ∃ name rule, storedRule w.store name = some rule ∧
      approvalRuleMatchesPath rule path = true := by
  refine (run_findMatchingRule env path _ w.tick).trans ⟨?_, ?_⟩
  · rintro ⟨i, name, rule, -, hrule, hmatch, -⟩
    exact ⟨name, rule, hrule, hmatch⟩
  rintro ⟨name, rule, hrule, hmatch⟩
  obtain ⟨blob, hblob, -⟩ := Option.bind_eq_some_iff.mp hrule
  have hlisted := (env.listOrder_perm _).mem_iff.mpr (mem_folderNames_of_lookup hblob)
  obtain ⟨i, hi⟩ := List.mem_iff_getElem?.mp hlisted
  exact ⟨i, name, rule, hi, hrule, hmatch, henv _ _⟩

theorem hints_iff {path : GoString} {ruleID : String} : Hints env w path ruleID ↔
    path ≠ [] ∧ ∃ rule, matching env w path = some rule ∧ rule.ruleID = ruleID := by
  have hlist : (storageList .config).run (exec env) w = _ := exec_storageList henv .config w
  unfold Hints handleApprovalRequiresApproval matching
  split
  · simp [*, errorReply, dataReply]
  rename_i hpath
  rw [Prog.run_bind, hlist]
  simp only [Prog.run_bind]
  split
  · rename_i rule hfound
    simp [hpath, hfound, dataReply, textValue, ofString_injective.eq_iff]
  · rename_i hfound
    simp [hfound, dataReply]

theorem scan_unblocked (core : Core) (keys : List String) {w : World} (h : Unengaged env.now w.store req) :
    ((scanActiveRequests core req keys).run (exec env) w).1 = none := by
  induction keys generalizing w with
  | nil => rfl
  | cons key rest ih =>
    have hdelete : Unengaged env.now (w.tick.delete (pendingKey key)).store req := by
      intro id p hp
      by_cases hid : id = key
      · subst hid
        cases (storedPending_erase_self _ _).symm.trans hp
      · refine h id p ?_
        rwa [World.delete, storedPending_erase_of_ne _ _ (pendingKey_ne (Ne.symm hid))] at hp
    unfold scanActiveRequests
    rw [Prog.run_bind, run_getPendingRequest, exec_storageGet henv]
    split
    · rename_i p hfound
      have hidle := h key p ((decodeEntry_eq_some_iff _ _ _).mp hfound)
      split
      · exact ih h
      rename_i hsame
      have hrival : Rivals req p := by simpa [Rivals, not_or] using hsame
      split
      · rename_i hstatus
        rw [Prog.run_bind, run_timeNow, if_neg fun hlate => hidle hrival (.inl ⟨hstatus, hlate⟩),
          Prog.run_bind, run_storageDelete henv]
        exact ih hdelete
      · rename_i hstatus
        rw [Prog.run_bind, run_timeNow,
          if_neg fun hunread => hidle hrival (.inr ⟨hstatus, hunread.1, hunread.2.2⟩),
          Prog.run_bind, run_storageDelete henv]
        exact ih hdelete
      · exact ih h
    · exact ih h

theorem run_parkUnlessActive (core : Core) (h : req.entityID ≠ "" → Unengaged env.now w.store req)
    (rule : ApprovalRule) : ∃ w', (parkUnlessActive core req rule).run (exec env) w =
      (parkRequest req rule).run (exec env) w' := by
  unfold parkUnlessActive
  split
  · rename_i hentity
    have hlist : (storageList .pending).run (exec env) w = _ := exec_storageList henv .pending w
    have hfree := scan_unblocked henv core (env.listOrder (folderNames w.store .pending))
      (w := w.tick) (h hentity)
    rw [Prog.run_bind, checkActiveApprovalRequest, Prog.run_bind, hlist]
    simp only [hfree]
    exact ⟨_, rfl⟩
  · exact ⟨w, rfl⟩

theorem run_parkRequest (req : Request) (rule : ApprovalRule) (w : World) :
    (((parkRequest req rule).run (exec env) w).1.intercepted = true ↔ Parkable env req) ∧
      ∀ id, env.uuid = .ok id → Parkable env req →
        storedPending ((parkRequest req rule).run (exec env) w).2.store id =
          some (parkedRequest req rule id env.now).normalize := by
  unfold parkRequest Parkable
  rw [Prog.run_bind, run_generateUUID]
  cases huuid : env.uuid with
  | error e => exact ⟨by simp, by simp⟩
  | ok id =>
    have hdata : (parkedRequest req rule id env.now).marshalJSON = none ↔
        marshalMap req.data = none :=
      (PendingRequest.marshalJSON_eq_none_iff _).trans (or_iff_left nofun)
    rw [Ne, ← hdata]
    simp only [Prog.run_bind, run_timeNow]
    cases hvalue : (parkedRequest req rule id env.now).marshalJSON with
    | none =>
      rw [run_storePendingRequest_of_none hvalue]
      exact ⟨by simp, by simp⟩
    | some value =>
      rw [run_storePendingRequest_of_some henv hvalue]
      refine ⟨by simp, ?_⟩
      rintro _ ⟨⟩ -
      refine (storedPending_insert_self _ _ _).trans ?_
      exact PendingRequest.decodeJSON_marshalJSON hvalue

variable (hread : req.operation = .read) (hroot : isRootAuth auth = false)
  (hfree : req.entityID ≠ "" → Unengaged env.now w.store req)

include hread hroot hfree

theorem parks_iff {ruleID : String} : Parks core env w auth req ruleID ↔
    (exemptPath req.path = false ∧ Parkable env req) ∧
      ∃ rule, matching env w req.path = some rule ∧ rule.ruleID = ruleID := by
  have hlist : (storageList .config).run (exec env) w = _ := exec_storageList henv .config w
  unfold Parks checkNeedsApproval matching
  split
  · simp [*]
  rename_i hexempt
  simp only [hread, hroot, interceptedOperation, Bool.not_true, Bool.false_eq_true, if_false,
    Prog.run_bind, hlist, Bool.eq_false_iff.mpr hexempt, true_and]
  split
  · rename_i hnone
    simp [hnone]
  rename_i rule hfound
  have hstore := (EffectFootprints.findMatchingRule_reads req.path
    (env.listOrder (folderNames w.store .config))).run_store env w.tick
  obtain ⟨w', hrun⟩ := run_parkUnlessActive henv core
    (by rw [hstore]; exact hfree) rule
  obtain ⟨hkept, hstored⟩ := run_parkRequest henv req rule w'
  rw [hrun, hkept, hfound]
  refine and_congr_right fun hparkable => ⟨?_, ?_⟩
  · rintro ⟨id, rule', huuid, rfl, hentry⟩
    have hsame := Option.some.inj ((hstored id huuid hparkable).symm.trans hentry)
    exact ⟨rule, rfl, congrArg PendingRequest.ruleID hsame⟩
  · rintro ⟨rule', ⟨⟩, hid⟩
    obtain ⟨id, huuid⟩ := hparkable.1
    exact ⟨id, rule, huuid, hid, hstored id huuid hparkable⟩

/-- Hint and interceptor agree iff no stored rule matches the path, or it is not empty exactly where
the interceptor looks at it and can store the entry. -/
theorem hint_agrees_iff :
    (∀ ruleID, Hints env w req.path ruleID ↔ Parks core env w auth req ruleID) ↔
      ((∃ name rule, storedRule w.store name = some rule ∧
        approvalRuleMatchesPath rule req.path = true) →
        (req.path ≠ [] ↔ exemptPath req.path = false ∧ Parkable env req)) := by
  rw [← isSome_matching henv, Option.isSome_iff_exists]
  simp only [hints_iff henv, parks_iff henv hread hroot hfree]
  constructor
  · rintro hagree ⟨rule, hrule⟩
    have hboth := hagree rule.ruleID
    rwa [and_iff_left ⟨rule, hrule, rfl⟩, and_iff_left ⟨rule, hrule, rfl⟩] at hboth
  · intro hsame ruleID
    refine and_congr_left ?_
    rintro ⟨rule, hrule, -⟩
    exact hsame ⟨rule, hrule⟩

end

def everywhere : ApprovalRule :=
  { sampleRule 1 with targetMountPath := ofString "*" }

def coveredWorld : World where
  store := (∅ : Store).insert (configKey "db") (.json everywhere.marshalJSON)

def healthRequest : Request :=
  { sampleRequest with path := ofString "sys/health" }

/-- The rule for every path covers the system paths in the hint only. -/
theorem hint_for_exempt_path :
    Hints sampleEnv coveredWorld healthRequest.path "db" ∧
      ¬ Parks sampleCore sampleEnv coveredWorld (some ["default"]) healthRequest "db" := by
  refine ⟨rfl, ?_⟩
  rintro ⟨hkept, -⟩
  exact absurd hkept (by decide)

theorem hint_agrees_sample :
    Hints sampleEnv ruleWorld sampleRequest.path "db" ∧
      Parks sampleCore sampleEnv ruleWorld (some ["default"]) sampleRequest "db" := by
  refine ⟨rfl, ((hint_agrees_iff (fun _ _ => rfl) rfl rfl ?_).mpr ?_ "db").mp rfl⟩
  · rintro - id p ⟨⟩
  · exact fun _ => iff_of_true (by decide) ⟨by decide, ⟨_, rfl⟩, by decide⟩

end VaultProofs.ApprovalHints
