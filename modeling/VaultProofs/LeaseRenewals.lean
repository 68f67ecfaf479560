import VaultProofs.LeaseManager

/-!
Renewals against the maximum TTL. A renewal keeps the issue time of its lease, so every TTL is
measured from it, however often the lease has been renewed.
-/

namespace VaultProofs.LeaseRenewals

open GoStrings GoTimes LeaseTTLs LeaseManager
open VaultEffects (GoError)

structure TTLRequest where
  sysView : SystemView
  increment : Span := 0
  backendTTL : Span := 0
  period : Span := 0
  backendMaxTTL : Span := 0
  explicitMaxTTL : Span := 0

def TTLRequest.calculate (request : TTLRequest) (issueTime : Option Int) (now : Int) :
    Except GoError (Span × List TTLWarning) :=
  calculateTTL request.sysView request.increment request.backendTTL request.period
    request.backendMaxTTL request.explicitMaxTTL issueTime now

def TTLRequest.maxima (request : TTLRequest) : List Span :=
  request.sysView.maxLeaseTTL ::
    [request.backendMaxTTL, request.explicitMaxTTL].filter (fun limit => 0 < limit)

structure Within (request : TTLRequest) (start now : Int) (ttl : Span) : Prop where
  positive : 0 < request.sysView.defaultLeaseTTL → 0 < ttl
  aperiodic : request.period ≤ 0 → ∀ limit ∈ request.maxima,
    truncate now + ttl.toInt ≤ truncate start + limit.toInt
  periodic : 0 < request.period → ∀ limit ∈ request.maxima, ttl.toInt ≤ limit.toInt
  explicit : 0 < request.period → 0 < request.explicitMaxTTL →
    truncate now + ttl.toInt ≤ truncate start + request.explicitMaxTTL.toInt

theorem effectiveMaxTTL_le {request : TTLRequest} {limit : Span} (h : limit ∈ request.maxima) :
    (effectiveMaxTTL request.sysView request.backendMaxTTL request.explicitMaxTTL).toInt ≤
      limit.toInt := by
  have hexplicit := restrictTo_le request.explicitMaxTTL
    (restrictTo request.backendMaxTTL request.sysView.maxLeaseTTL)
  rw [TTLRequest.maxima, List.mem_cons, List.mem_filter] at h
  rcases h with rfl | ⟨hmem, hpos⟩
  · exact Int.le_trans hexplicit (restrictTo_le _ _)
  have hpos : 0 < limit := of_decide_eq_true hpos
  rcases List.mem_pair.mp hmem with rfl | rfl
  · exact Int.le_trans hexplicit (restrictTo_le_limit hpos)
  · exact restrictTo_le_limit hpos

theorem calculate_within {request : TTLRequest} {start now : Int} {ttl : Span}
    {warnings : List TTLWarning}
    (h : request.calculate (some start) now = .ok (ttl, warnings)) :
    Within request start now ttl := by
  have hgranted := calculateTTL_granted h
  refine ⟨hgranted.positive, fun hperiod limit hlimit => ?_, fun hperiod limit hlimit => ?_,
    hgranted.explicit⟩
  · have hle := hgranted.aperiodic hperiod
    have hmax := effectiveMaxTTL_le hlimit
    omega
  · have hle := hgranted.periodic hperiod
    have hmax := effectiveMaxTTL_le hlimit
    omega

inductive Renewal where
  | ofSecret (r : SecretRenewal)
  | ofToken (r : TokenRenewal)

def Renewal.leaseID : Renewal → GoString
  | .ofSecret r => r.leaseID
  | .ofToken r => r.leaseID

def Renewal.request : Renewal → Option TTLRequest
  | .ofSecret r =>
    match r.sysView, r.reply with
    | some sysView, .ok (.renewed secret _) =>
      some
        { sysView := sysView
          increment := r.increment
          backendTTL := secret.ttl
          backendMaxTTL := secret.maxTTL }
    | _, _ => none
  | .ofToken r =>
    match r.sysView, r.reply with
    | some sysView, .ok (.renewed auth _) =>
      some
        { sysView := sysView
          increment := r.increment
          backendTTL := auth.ttl
          period := auth.period
          backendMaxTTL := auth.maxTTL
          explicitMaxTTL := auth.explicitMaxTTL }
    | _, _ => none

def runRenewal (env : CallEnv) (m : Manager) : Renewal → Manager
  | .ofSecret r => (renew env r m).2
  | .ofToken r => (renewToken env r m).2

def runRenewals (m : Manager) (renewals : List (CallEnv × Renewal)) : Manager :=
  renewals.foldl (fun m renewal => runRenewal renewal.1 m renewal.2) m

structure Calculation where
  leaseID : GoString
  now : Int
  request : TTLRequest
  ttl : Span

def calculated (env : CallEnv) (m : Manager) (renewal : Renewal) : Option Calculation :=
  match m.stored.lookup renewal.leaseID, renewal.request with
  | some le, some request =>
    match request.calculate le.issueTime env.now with
    | .ok (ttl, _) => some ⟨renewal.leaseID, env.now, request, ttl⟩
    | .error _ => none
  | _, _ => none

def calculations (m : Manager) : List (CallEnv × Renewal) → List Calculation
  | [] => []
  | (env, renewal) :: renewals =>
    (calculated env m renewal).toList ++ calculations (runRenewal env m renewal) renewals

def Issued (issued : GoString → Option Int) (m : Manager) : Prop :=
  ∀ id le, m.stored.lookup id = some le → le.leaseID = id ∧ le.issueTime = issued id

variable {issued : GoString → Option Int} {env : CallEnv} {m : Manager}

theorem issued_renewed {id : GoString} {grants : LeaseEntry → Span → Prop} {n : Manager} (h : Issued issued m)
    (hrenews : Renews env id grants m n) : Issued issued n := by
  rcases hrenews with rfl | ⟨le, renewed, answer, ttl, hstored, -, -, ⟨hid, -, htime, -⟩, hnext⟩
  · exact h
  obtain ⟨hle, hissued⟩ := h id le hstored
  rw [hle] at hid
  have hpersisted : Issued issued (m.persist renewed) := by
    intro x kept hkept
    by_cases hx : x = renewed.leaseID
    · rw [Manager.persist, hx, AList.lookup_insert] at hkept
      cases hkept
      rw [hx, htime, hid]
      exact ⟨rfl, hissued⟩
    · rw [Manager.persist, AList.lookup_insert_ne hx] at hkept
      exact h x kept hkept
  rcases hnext with rfl | rfl
  · exact hpersisted
  · exact hpersisted

theorem issued_runRenewal
    (h : Issued issued m) (renewal : Renewal) : Issued issued (runRenewal env m renewal) := by
  cases renewal with
  | ofSecret r => exact issued_renewed h (renew_renews env r m)
  | ofToken r => exact issued_renewed h (renewToken_renews env r m)

variable {renewal : Renewal}

theorem calculated_within
    {c : Calculation} {start : Int} (h : Issued issued m)
    (hc : calculated env m renewal = some c) (hstart : issued c.leaseID = some start) :
    Within c.request start c.now c.ttl := by
  rw [calculated] at hc
  split at hc
  · rename_i le request hstored hrequest
    split at hc
    · rename_i ttl warnings httl
      cases hc
      rw [(h _ le hstored).2, hstart] at httl
      exact calculate_within httl
    · cases hc
  · cases hc

theorem calculated_eq {le : LeaseEntry}
    {request : TTLRequest} {ttl : Span} {warnings : List TTLWarning}
    (hstored : m.stored.lookup renewal.leaseID = some le)
    (hrequest : renewal.request = some request)
    (httl : request.calculate le.issueTime env.now = .ok (ttl, warnings)) :
    calculated env m renewal = some ⟨renewal.leaseID, env.now, request, ttl⟩ := by
  simp only [calculated, hstored, hrequest, httl]

theorem renewed_calculated (env : CallEnv) (m : Manager) (renewal : Renewal) :
    runRenewal env m renewal = m ∨ ∃ le renewed c, m.stored.lookup renewal.leaseID = some le ∧
      calculated env m renewal = some c ∧ RenewedEntry env.now c.ttl le renewed ∧
      (runRenewal env m renewal).stored = m.stored.insert renewed.leaseID renewed := by
  cases renewal with
  | ofSecret r =>
    rcases renew_renews env r m with hsame | ⟨le, renewed, answer, ttl, hstored, -,
      ⟨sysView, secret, earlier, warnings, hsysView, hreply, httl⟩, hrenewed, hnext⟩
    · exact .inl hsame
    have hrequest : (Renewal.ofSecret r).request = some ⟨sysView, r.increment, secret.ttl, 0,
        secret.maxTTL, 0⟩ := by
      simp only [Renewal.request, hsysView, hreply]
    refine .inr ⟨le, renewed, _, hstored, calculated_eq hstored hrequest httl, hrenewed, ?_⟩
    rcases hnext with hnext | hnext
    · exact congrArg Manager.stored hnext
    · exact congrArg Manager.stored hnext
  | ofToken r =>
    rcases renewToken_renews env r m with hsame | ⟨le, renewed, answer, ttl, hstored, -,
      ⟨sysView, auth, earlier, warnings, hsysView, hreply, httl⟩, hrenewed, hnext⟩
    · exact .inl hsame
    have hrequest : (Renewal.ofToken r).request = some ⟨sysView, r.increment, auth.ttl,
        auth.period, auth.maxTTL, auth.explicitMaxTTL⟩ := by
      simp only [Renewal.request, hsysView, hreply]
    refine .inr ⟨le, renewed, _, hstored, calculated_eq hstored hrequest httl, hrenewed, ?_⟩
    rcases hnext with hnext | hnext
    · exact congrArg Manager.stored hnext
    · exact congrArg Manager.stored hnext

/-- However often a lease is renewed, every TTL computed for it is within the maxima, measured from
its issue time. -/
theorem renewals_within_maxima (issued : GoString → Option Int) (m : Manager)
    (renewals : List (CallEnv × Renewal)) (hissued : Issued issued m) (c : Calculation)
    (hc : c ∈ calculations m renewals) (start : Int) (hstart : issued c.leaseID = some start) :
    Within c.request start c.now c.ttl := by
  induction renewals generalizing m with
  | nil => cases hc
  | cons renewal renewals ih =>
    obtain ⟨env, renewal⟩ := renewal
    rcases List.mem_append.mp hc with hnow | hlater
    · exact calculated_within hissued (Option.mem_toList.mp hnow) hstart
    · exact ih _ (issued_runRenewal hissued renewal) hlater

def sampleLease : Manager :=
  { stored := AList.insert [1]
      { leaseID := [1]
        secret := some { ttl := 60 * 1000000000, renewable := true }
        issueTime := some (10 * second)
        expireTime := some (70 * second) } ∅ }

def sampleRenewal (clock : Int) : CallEnv × Renewal :=
  ({ now := clock * second },
    .ofSecret
      { leaseID := [1]
        sysView := some { defaultLeaseTTL := 60 * 1000000000, maxLeaseTTL := 100 * 1000000000 }
        reply := .ok (.renewed { ttl := 60 * 1000000000, renewable := true } []) })

theorem sampleRenewals_within :
    (calculations sampleLease [sampleRenewal 40, sampleRenewal 95]).map
        (fun c => (c.now, c.ttl)) =
      [(40 * second, 60 * 1000000000), (95 * second, 15 * 1000000000)] ∧
    ∀ c ∈ calculations sampleLease [sampleRenewal 40, sampleRenewal 95],
      Within c.request (10 * second) c.now c.ttl := by
  refine ⟨by decide +kernel, fun c hc => ?_⟩
  refine renewals_within_maxima (fun _ => some (10 * second)) sampleLease _ ?_ c hc _ rfl
  intro id le hstored
  by_cases hid : id = [1]
  · subst hid
    cases hstored
    exact ⟨rfl, rfl⟩
  · rw [sampleLease, AList.lookup_insert_ne hid] at hstored
    cases hstored

end VaultProofs.LeaseRenewals
