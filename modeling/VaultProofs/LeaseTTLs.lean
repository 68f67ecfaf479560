import VaultProofs.GoTimes
import VaultProofs.VaultEffects

/-!
The TTL a lease is granted: what the caller asks for, what backend and mount set, and how the maxima
cap it.
-/

namespace VaultProofs.LeaseTTLs

open GoStrings GoTimes
open VaultEffects (GoError)

structure SystemView where
  defaultLeaseTTL : Span
  maxLeaseTTL : Span

/-- The warnings of `CalculateTTL`, with the two durations their texts print. -/
inductive TTLWarning where
  | periodCapped (period maxTTL : Span)
  | ttlCapped (ttl maxValidTTL : Span)
  deriving DecidableEq

def errMaxTTL : GoError :=
  .message (ofString "max TTL must be greater than zero")

def errPastMaxTTL : GoError :=
  .message (ofString "past the max TTL, cannot renew")

def restrictTo (limit maxTTL : Span) : Span :=
  if 0 < limit ∧ limit < maxTTL then limit else maxTTL

/-- The mount's maximum unless backend or token has a more restrictive one. -/
def effectiveMaxTTL (sysView : SystemView) (backendMaxTTL explicitMaxTTL : Span) : Span :=
  restrictTo explicitMaxTTL (restrictTo backendMaxTTL sysView.maxLeaseTTL)

/-- The TTL before the last cap, and the instant it may not pass, if any. -/
def proposeTTL (sysView : SystemView)
    (increment backendTTL period explicitMaxTTL maxTTL : Span) (startTime : Int) :
    Span × List TTLWarning × Option Int :=
  if 0 < period then
    let warnings := if maxTTL < period then [.periodCapped period maxTTL] else []
    let ttl := if maxTTL < period then maxTTL else period
    (ttl, warnings, if 0 < explicitMaxTTL then some (add startTime explicitMaxTTL) else none)
  else
    let ttl :=
      if 0 < increment then increment
      else if 0 < backendTTL then backendTTL
      else sysView.defaultLeaseTTL
    (ttl, [], some (add startTime maxTTL))

def capTTL (now : Int) :
    Span × List TTLWarning × Option Int → Except GoError (Span × List TTLWarning)
  | (ttl, warnings, none) => .ok (ttl, warnings)
  | (ttl, warnings, some maxValidTime) =>
    let maxValidTTL := sub maxValidTime now
    if maxValidTTL ≤ 0 then .error errPastMaxTTL
    else if maxValidTTL - ttl < 0 then
      .ok (maxValidTTL, warnings ++ [.ttlCapped ttl maxValidTTL])
    else .ok (ttl, warnings)

def calculateTTL (sysView : SystemView)
    (increment backendTTL period backendMaxTTL explicitMaxTTL : Span)
    (startTime : Option Int) (clock : Int) : Except GoError (Span × List TTLWarning) :=
  let now := truncate clock
  let start := (startTime.map truncate).getD now
  let maxTTL := effectiveMaxTTL sysView backendMaxTTL explicitMaxTTL
  if maxTTL ≤ 0 then .error errMaxTTL
  else capTTL now (proposeTTL sysView increment backendTTL period explicitMaxTTL maxTTL start)

theorem restrictTo_le (limit maxTTL : Span) : (restrictTo limit maxTTL).toInt ≤ maxTTL.toInt := by
  rw [restrictTo]
  split
  · rename_i h
    have hlt := Int64.lt_iff_toInt_lt.mp h.2
    omega
  · exact Int.le_refl _

theorem restrictTo_le_limit {limit maxTTL : Span} (h : 0 < limit) :
    (restrictTo limit maxTTL).toInt ≤ limit.toInt := by
  rw [restrictTo]
  split
  · exact Int.le_refl _
  rename_i hnot
  have hle : ¬ limit < maxTTL := fun hlt => hnot ⟨h, hlt⟩
  rw [Int64.lt_iff_toInt_lt] at hle
  omega

variable {proposal : Span × List TTLWarning × Option Int} {ttl : Span} {warnings : List TTLWarning}

theorem capTTL_cases {now : Int} (h : capTTL now proposal = .ok (ttl, warnings)) :
    (ttl = proposal.1 ∧
      ∀ limit, proposal.2.2 = some limit →
        0 < sub limit now ∧ ¬ sub limit now - proposal.1 < 0) ∨
      ∃ limit, proposal.2.2 = some limit ∧
        ttl = sub limit now ∧ 0 < sub limit now ∧ sub limit now - proposal.1 < 0 := by
  obtain ⟨proposed, earlier, maxValidTime⟩ := proposal
  cases maxValidTime with
  | none =>
    cases h
    exact .inl ⟨rfl, fun limit hlimit => nomatch hlimit⟩
  | some maxValidTime =>
    rw [capTTL] at h
    by_cases hpast : sub maxValidTime now ≤ 0
    · rw [if_pos hpast] at h
      cases h
    have hleft : 0 < sub maxValidTime now := by
      rw [span_nonpos] at hpast
      rw [span_pos]
      omega
    rw [if_neg hpast] at h
    by_cases hcap : sub maxValidTime now - proposed < 0
    · rw [if_pos hcap] at h
      cases h
      exact .inr ⟨maxValidTime, rfl, rfl, hleft, hcap⟩
    rw [if_neg hcap] at h
    cases h
    refine .inl ⟨rfl, fun limit hlimit => ?_⟩
    cases hlimit
    exact ⟨hleft, hcap⟩

theorem capTTL_limit {now limit : Int} (h : capTTL now proposal = .ok (ttl, warnings))
    (hlimit : proposal.2.2 = some limit) : now + ttl.toInt ≤ limit := by
  rcases capTTL_cases h with ⟨rfl, hleft⟩ | ⟨limit', hlimit', rfl, hleft, -⟩
  · obtain ⟨hleft, hcap⟩ := hleft limit hlimit
    have hsub := sub_le hleft
    by_cases hpos : 0 < proposal.1
    · rw [diff_neg_iff hleft hpos, Int64.lt_iff_toInt_lt] at hcap
      omega
    · rw [span_pos] at hpos hleft
      omega
  · cases hlimit.symm.trans hlimit'
    have hsub := sub_le hleft
    omega

theorem capTTL_pos {now : Int} (h : capTTL now proposal = .ok (ttl, warnings))
    (hpos : 0 < proposal.1) : 0 < ttl ∧ ttl.toInt ≤ proposal.1.toInt := by
  rcases capTTL_cases h with ⟨rfl, -⟩ | ⟨limit, -, rfl, hleft, hcap⟩
  · exact ⟨hpos, Int.le_refl _⟩
  · rw [diff_neg_iff hleft hpos, Int64.lt_iff_toInt_lt] at hcap
    exact ⟨hleft, by omega⟩

/-- What `CalculateTTL` may grant at `clock` under a maximum. -/
structure Granted (sysView : SystemView) (period explicitMaxTTL maxTTL : Span)
    (start clock : Int) (ttl : Span) : Prop where
  positive : 0 < sysView.defaultLeaseTTL → 0 < ttl
  aperiodic : period ≤ 0 → truncate clock + ttl.toInt ≤ truncate start + maxTTL.toInt
  periodic : 0 < period → ttl.toInt ≤ maxTTL.toInt
  explicit : 0 < period → 0 < explicitMaxTTL →
    truncate clock + ttl.toInt ≤ truncate start + explicitMaxTTL.toInt

theorem calculateTTL_granted {sysView : SystemView}
    {increment backendTTL period backendMaxTTL explicitMaxTTL : Span} {start clock : Int}
    (h : calculateTTL sysView increment backendTTL period backendMaxTTL explicitMaxTTL
      (some start) clock = .ok (ttl, warnings)) :
    Granted sysView period explicitMaxTTL
      (effectiveMaxTTL sysView backendMaxTTL explicitMaxTTL) start clock ttl := by
  rw [calculateTTL] at h
  generalize effectiveMaxTTL sysView backendMaxTTL explicitMaxTTL = maxTTL at h ⊢
  by_cases hmax : maxTTL ≤ 0
  · rw [if_pos hmax] at h
    cases h
  rw [if_neg hmax] at h
  have hmaxPos : 0 < maxTTL := by
    rw [span_nonpos] at hmax
    rw [span_pos]
    omega
  by_cases hperiod : 0 < period
  · have hpos : 0 < (if maxTTL < period then maxTTL else period) := by
      split
      · exact hmaxPos
      · exact hperiod
    have hcap : (if maxTTL < period then maxTTL else period).toInt ≤ maxTTL.toInt := by
      split
      · exact Int.le_refl _
      · rename_i hle
        rw [Int64.lt_iff_toInt_lt] at hle
        omega
    rw [proposeTTL, if_pos hperiod] at h
    obtain ⟨httl, hle⟩ := capTTL_pos h hpos
    refine ⟨fun _ => httl, fun hnot => ?_, fun _ => Int.le_trans hle hcap, fun _ hexplicit => ?_⟩
    · rw [span_nonpos] at hnot
      rw [span_pos] at hperiod
      omega
    · exact capTTL_limit h (if_pos hexplicit)
  rw [proposeTTL, if_neg hperiod] at h
  refine ⟨fun hdefault => ?_, fun _ => capTTL_limit h rfl, fun hpos => absurd hpos hperiod,
    fun hpos => absurd hpos hperiod⟩
  refine (capTTL_pos h ?_).1
  split
  · assumption
  · split
    · assumption
    · exact hdefault

end VaultProofs.LeaseTTLs
