import VaultProofs.EffectFootprints

/-!
When a request that a stored rule covers is kept away from the backend. The scan for a rule skips
those whose read fails, so the answer depends on which reads fail.
-/

namespace VaultProofs.InterceptionCompleteness

open GoStrings EffectPrograms ApprovalEntries VaultEffects ApprovalInterceptor RequestRouting
open EffectFootprints

/-- Among the listed keys there is a rule that matches the path and whose read, at its place in the
scan, does not fail. -/
def ReadableMatch (env : Env) (store : Store) (path : GoString) (first : Nat)
    (keys : List String) : Prop :=
  ∃ i name rule, keys[i]? = some name ∧ storedRule store name = some rule ∧
    approvalRuleMatchesPath rule path = true ∧
    env.fails (first + i) (.storageGet (configKey name)) = false

variable (core : Core) (env : Env) (w : World)

theorem readableMatch_cons (store : Store) (path : GoString) (first : Nat) (key : String)
    (rest : List String) :
    ReadableMatch env store path first (key :: rest) ↔
      (∃ rule, storedRule store key = some rule ∧ approvalRuleMatchesPath rule path = true ∧
        env.fails first (.storageGet (configKey key)) = false) ∨
      ReadableMatch env store path (first + 1) rest := by
  constructor
  · rintro ⟨i, name, rule, hkey, hrule, hmatch, hread⟩
    cases i with
    | zero =>
      obtain rfl : key = name := by simpa using hkey
      exact .inl ⟨rule, hrule, hmatch, hread⟩
    | succ i =>
      refine .inr ⟨i, name, rule, hkey, hrule, hmatch, ?_⟩
      rwa [show first + 1 + i = first + (i + 1) by omega]
  rintro (⟨rule, hrule, hmatch, hread⟩ | ⟨i, name, rule, hkey, hrule, hmatch, hread⟩)
  · exact ⟨0, key, rule, rfl, hrule, hmatch, hread⟩
  · refine ⟨i + 1, name, rule, hkey, hrule, hmatch, ?_⟩
    rwa [show first + (i + 1) = first + 1 + i by omega]

theorem run_getApprovalRule_eq_some_iff (name : String) (w : World) (rule : ApprovalRule) :
    ((getApprovalRule name).run (exec env) w).1 = .ok (some rule) ↔
      storedRule w.store name = some rule ∧
        env.fails w.storageOps (.storageGet (configKey name)) = false := by
  rw [run_getApprovalRule]
  simp only [exec]
  split
  · simp_all [decodeEntry]
  · simp_all [decodeEntry_eq_some_iff, storedRule]

theorem run_findMatchingRule (path : GoString) (keys : List String) (w : World) :
    ((findMatchingRule path keys).run (exec env) w).1.isSome ↔
      ReadableMatch env w.store path w.storageOps keys := by
  induction keys generalizing w with
  | nil => simp [findMatchingRule, ReadableMatch]
  | cons key rest ih =>
    have hrest := ih w.tick
    have hsnd : ((getApprovalRule key).run (exec env) w).2 = w.tick :=
      exec_storageGet_snd env _ w
    rw [readableMatch_cons, findMatchingRule, Prog.run_bind, hsnd]
    split
    · rename_i rule hread
      obtain ⟨hstored, hok⟩ := (run_getApprovalRule_eq_some_iff env key w rule).mp hread
      split
      · rename_i hmatch
        simp only [pure, Prog.run_ret, Option.isSome_some, true_iff]
        exact .inl ⟨rule, hstored, hmatch, hok⟩
      rename_i hmatch
      refine hrest.trans ⟨.inr, ?_⟩
      rintro (⟨other, hother, hmatch', -⟩ | hlater)
      · rw [hstored] at hother
        cases hother
        exact absurd hmatch' hmatch
      · exact hlater
    rename_i hunread
    refine hrest.trans ⟨.inr, ?_⟩
    rintro (⟨rule, hstored, -, hok⟩ | hlater)
    · exact absurd ((run_getApprovalRule_eq_some_iff env key w rule).mpr ⟨hstored, hok⟩)
        (hunread rule)
    · exact hlater

/-- A request the interceptor looks at: a read, update or create outside the exempt paths by a
caller that is not root. -/
def Guarded (auth : Option (List String)) (req : Request) : Prop :=
  exemptPath req.path = false ∧ interceptedOperation req.operation = true ∧
    isRootAuth auth = false

instance (auth : Option (List String)) (req : Request) : Decidable (Guarded auth req) :=
  inferInstanceAs (Decidable (_ ∧ _ ∧ _))

/-- The listing of the rules fails, or the scan gets to read a matching rule. -/
def ScanStops (env : Env) (w : World) (path : GoString) : Prop :=
  env.fails w.storageOps (.storageList .config) = true ∨
    ReadableMatch env w.store path (w.storageOps + 1)
      (env.listOrder (folderNames w.store .config))

theorem run_checkNeedsApproval (auth : Option (List String)) (req : Request)
    (hreq : Guarded auth req) :
    Interception.Stops ((checkNeedsApproval core req auth).run (exec env) w).1 ↔
      ScanStops env w req.path := by
  obtain ⟨hpath, hop, hroot⟩ := hreq
  unfold checkNeedsApproval ScanStops
  simp only [hpath, hop, hroot, Bool.false_eq_true, Bool.not_true, if_false]
  rw [Prog.run_bind]
  have hlist : (storageList .config).run (exec env) w = exec env (.storageList .config) w := rfl
  cases hfails : env.fails w.storageOps (.storageList .config) with
  | true =>
    have hanswer : exec env (.storageList .config) w = (.error storageFailed, w.tick) := by
      simp [exec, hfails]
    rw [hlist, hanswer]
    simp [Interception.Stops, failedReply]
  | false =>
    have hanswer : exec env (.storageList .config) w =
        (.ok (env.listOrder (folderNames w.store .config)), w.tick) := by
      simp [exec, hfails]
    have hfind := run_findMatchingRule env req.path
      (env.listOrder (folderNames w.store .config)) w.tick
    rw [hlist, hanswer]
    simp only [Prog.run_bind, Bool.false_eq_true, false_or]
    refine Iff.trans ?_ hfind
    split
    · rename_i hnone
      simp [hnone, Interception.Stops]
    · rename_i rule hsome
      simp only [hsome, Option.isSome_some, iff_true]
      exact (parkUnlessActive_stops core req rule).run_post _

theorem run_routeRequest (req : Request) :
    ((routeRequest core req).run (exec env) w).2.routed = w.routed ++ [(req, env.backend req)] :=
  run_routed (settleResponse_within core req (env.backend req)).runs fun _ h => h

/-- A guarded request stays away from the backend iff the interceptor is asked and its scan is
stopped. -/
theorem run_handleRequest_routed_iff (bypass : Bool) (auth : Option (List String)) (req : Request)
    (hreq : Guarded auth req) :
    ((handleRequest core bypass auth req).run (exec env) w).2.routed = w.routed ↔
      bypass = false ∧ ScanStops env w req.path := by
  have hrecover : req.operation ≠ .recover := by
    intro hop
    have hintercepted := hreq.2.1
    rw [hop] at hintercepted
    cases hintercepted
  have hdispatch : ∀ w' : World, w'.routed = w.routed →
      ((routeRequest core req).run (exec env) w').2.routed ≠ w.routed := by
    intro w' hw' hsame
    rw [run_routeRequest, hw'] at hsame
    simp at hsame
  simp only [handleRequest, hrecover, if_false, interceptOrRoute]
  cases bypass with
  | true =>
    exact ⟨fun hsame => absurd hsame (hdispatch w rfl), fun h => by simp at h⟩
  | false =>
    have hstops := run_checkNeedsApproval core env w auth req hreq
    have hcheck : RunsWithin env (parking req) (checkNeedsApproval core req auth) w :=
      checkNeedsApproval_parks core req auth
    have hrouted := run_routed hcheck fun _ h => h
    simp only [Bool.false_eq_true, if_false, true_and, Prog.run_bind]
    rw [← hstops, Interception.Stops]
    split
    · rename_i hkept
      simp only [hkept, iff_true]
      exact hrouted
    · rename_i hkept
      exact ⟨fun hsame => absurd hsame (hdispatch _ hrouted), fun h => absurd h hkept⟩

/-- If a stored rule matches the path, the request is not dispatched in that call. -/
def InterceptionComplete (core : Core) (env : Env) (w : World) (bypass : Bool)
    (auth : Option (List String)) (req : Request) : Prop :=
  (∃ name rule, storedRule w.store name = some rule ∧
    approvalRuleMatchesPath rule req.path = true) →
  ((handleRequest core bypass auth req).run (exec env) w).2.routed = w.routed

/-- Interception is complete iff the interceptor is asked and the rules cannot be listed or a
matching one can be read. -/
theorem interceptionComplete_iff (core : Core) (env : Env) (w : World) (bypass : Bool)
    (auth : Option (List String)) (req : Request) (hreq : Guarded auth req) :
    InterceptionComplete core env w bypass auth req ↔
      ((∃ name rule, storedRule w.store name = some rule ∧
        approvalRuleMatchesPath rule req.path = true) →
        bypass = false ∧ ScanStops env w req.path) := by
  unfold InterceptionComplete
  rw [run_handleRequest_routed_iff core env w bypass auth req hreq]

theorem storedRule_ruleWorld : storedRule ruleWorld.store "db" = some (sampleRule 1) := rfl

def lossyEnv : Env :=
  { Env.quiet 0 fun _ => {} with fails := fun n _ => n == 1 }

theorem not_interceptionComplete_lossyEnv :
    ¬ InterceptionComplete sampleCore lossyEnv ruleWorld false (some ["default"])
      sampleRequest := by
  intro hcomplete
  have hrouted := hcomplete ⟨"db", sampleRule 1, storedRule_ruleWorld, by decide⟩
  have hlength := congrArg List.length hrouted
  revert hlength
  decide

theorem interceptionComplete_quiet :
    Guarded (some ["default"]) sampleRequest ∧
      InterceptionComplete sampleCore (Env.quiet 0 fun _ => {}) ruleWorld false
        (some ["default"]) sampleRequest := by
  refine ⟨by decide, ?_⟩
  rw [interceptionComplete_iff _ _ _ _ _ _ (by decide)]
  intro _
  exact ⟨rfl, .inr ⟨0, "db", sampleRule 1, rfl, storedRule_ruleWorld, by decide, rfl⟩⟩

end VaultProofs.InterceptionCompleteness
