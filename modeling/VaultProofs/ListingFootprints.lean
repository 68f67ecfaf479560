import VaultProofs.EffectFootprints
import VaultProofs.RuleHandlers
import VaultProofs.ListingHandlers

/-!
Listings and the handlers of rules write no entry under `pending/`, dispatch
nothing and register no lease: they stay within every footprint.
-/

namespace VaultProofs.ListingFootprints

open GoStrings JsonValues EffectPrograms ApprovalEntries VaultEffects ApprovalInterceptor
open EffectFootprints RuleHandlers ListingHandlers

/-! Rules -/

variable {F : Footprint} (core : Core) (req : Request)

theorem handleApprovalRuleList_reads : ReadsOnly handleApprovalRuleList := by
  refine Prog.performs_perform trivial fun listed => ?_
  cases listed with
  | error e | ok keys => trivial

theorem handleApprovalRuleRead_reads (ruleID : String) :
    ReadsOnly (handleApprovalRuleRead core ruleID) := by
  refine Prog.performs_bind (getApprovalRule_reads ruleID) fun found _ => ?_
  split <;> trivial

theorem handleApprovalRuleWrite_outside (ruleID : String)
    (fields : RuleFields) : StaysOutside (handleApprovalRuleWrite core req ruleID fields) := by
  unfold handleApprovalRuleWrite
  split
  · trivial
  refine Prog.performs_bind (getApprovalRule_reads ruleID).outside fun found _ => ?_
  cases found with
  | error e => trivial
  | ok existing =>
    simp only
    split
    · trivial
    refine Prog.performs_bind (putApprovalRule_outside _) fun stored _ => ?_
    cases stored with
    | error e | ok done => trivial

theorem sweepKeys_within (ruleID : String) (keys : List String) :
    Within F (sweepKeys ruleID keys) := by
  induction keys with
  | nil => trivial
  | cons key rest ih =>
    refine Prog.performs_bind (getPendingRequest_within key) fun found _ => ?_
    split
    · split
      · exact Prog.performs_perform trivial fun _ => ih
      · exact ih
    · exact ih

theorem handleApprovalRuleDelete_within (ruleID : String) :
    Within F (handleApprovalRuleDelete ruleID) := by
  have hsweep : Within F (sweepPendingRequestsByRule ruleID) := by
    refine Prog.performs_perform trivial fun listed => ?_
    cases listed with
    | error e => trivial
    | ok keys => exact Prog.performs_bind (sweepKeys_within ruleID keys) fun _ _ => trivial
  refine Prog.performs_bind hsweep fun _ _ => ?_
  refine Prog.performs_perform trivial fun deleted => ?_
  cases deleted with
  | error e | ok done => trivial

theorem handleApprovalRequiresApproval_reads (path : GoString) :
    ReadsOnly (handleApprovalRequiresApproval path) := by
  unfold handleApprovalRequiresApproval
  split
  · trivial
  refine Prog.performs_perform trivial fun listed => ?_
  cases listed with
  | error e => trivial
  | ok keys =>
    refine Prog.performs_bind (findMatchingRule_reads path keys) fun found _ => ?_
    cases found with
    | none | some rule => trivial

/-! Listings -/

theorem isApproverOfSomeRule_reads (entityID : String) (keys : List String) :
    ReadsOnly (isApproverOfSomeRule core entityID keys) := by
  induction keys with
  | nil => trivial
  | cons key rest ih =>
    refine Prog.performs_bind (getApprovalRule_reads key) fun found _ => ?_
    split
    · split
      · trivial
      · exact ih
    · exact ih

theorem approverGate_reads : ReadsOnly (approverGate core req) := by
  unfold approverGate
  split
  · trivial
  split
  · trivial
  refine Prog.performs_perform trivial fun listed => ?_
  cases listed with
  | error e => trivial
  | ok keys =>
    refine Prog.performs_bind (isApproverOfSomeRule_reads core _ keys) fun found _ => ?_
    split <;> trivial

theorem handleApprovalPendingList_reads : ReadsOnly (handleApprovalPendingList core req) := by
  refine Prog.performs_bind (approverGate_reads core req) fun gate _ => ?_
  cases gate with
  | some e => trivial
  | none =>
    refine Prog.performs_perform trivial fun listed => ?_
    cases listed with
    | error e | ok keys => trivial

theorem mayReadPending_reads (p : PendingRequest) : ReadsOnly (mayReadPending core req p) := by
  unfold mayReadPending
  split
  · trivial
  split
  · trivial
  · refine Prog.performs_bind (getApprovalRule_reads _) fun found _ => ?_
    split <;> trivial

theorem handleApprovalPendingRead_within (id : String) :
    Within F (handleApprovalPendingRead core req id) := by
  refine Prog.performs_bind (getPendingRequest_within id) fun found _ => ?_
  split
  · trivial
  · trivial
  refine Prog.performs_bind (mayReadPending_reads core req _).within fun allowed _ => ?_
  split
  · split
    · refine Prog.performs_perform trivial fun now => ?_
      split
      · exact Prog.performs_perform trivial fun _ => trivial
      · trivial
    · trivial
  · trivial

theorem mayApproveRow_reads (p : PendingRequest) : ReadsOnly (mayApproveRow core req p) := by
  unfold mayApproveRow
  split
  · trivial
  · refine Prog.performs_bind (getApprovalRule_reads _) fun found _ => ?_
    split <;> trivial

theorem approvableRows_within (keys : List String) : Within F (approvableRows core req keys) := by
  induction keys with
  | nil => trivial
  | cons key rest ih =>
    refine Prog.performs_bind (getPendingRequest_within key) fun found _ => ?_
    split
    · split
      · exact ih
      refine Prog.performs_perform trivial fun now => ?_
      split
      · exact Prog.performs_perform trivial fun _ => ih
      · refine Prog.performs_bind (mayApproveRow_reads core req _).within fun allowed _ => ?_
        exact Prog.performs_bind ih fun rows _ => trivial
    · exact ih

theorem handleApprovalApprovable_within : Within F (handleApprovalApprovable core req) := by
  unfold handleApprovalApprovable
  split
  · trivial
  refine Prog.performs_perform trivial fun listed => ?_
  cases listed with
  | error e => trivial
  | ok keys =>
    exact Prog.performs_bind (approvableRows_within core req keys) fun rows _ => trivial

theorem myRequestRows_within (keys : List String) : Within F (myRequestRows req keys) := by
  induction keys with
  | nil => trivial
  | cons key rest ih =>
    refine Prog.performs_bind (getPendingRequest_within key) fun found _ => ?_
    split
    · split
      · exact ih
      · refine Prog.performs_perform trivial fun now => ?_
        split
        · exact Prog.performs_perform trivial fun _ => ih
        · exact Prog.performs_bind ih fun rows _ => trivial
    · exact ih

theorem liveHistory_outside (now : Time) (keys : List String) :
    StaysOutside (liveHistory now keys) := by
  induction keys with
  | nil => trivial
  | cons key rest ih =>
    refine Prog.performs_perform nofun fun found => ?_
    split
    · split
      · exact Prog.performs_perform nofun fun _ => ih
      · exact Prog.performs_bind ih fun entries _ => trivial
    · exact ih

theorem listAllHistoryEntries_outside : StaysOutside listAllHistoryEntries := by
  refine Prog.performs_perform trivial fun listed => ?_
  cases listed with
  | error e => trivial
  | ok keys =>
    refine Prog.performs_perform trivial fun now => ?_
    exact Prog.performs_bind (liveHistory_outside now keys) fun entries _ => trivial

theorem listHistoryEntriesForUser_outside (entityID : String) :
    StaysOutside (listHistoryEntriesForUser entityID) := by
  refine Prog.performs_bind listAllHistoryEntries_outside fun listed _ => ?_
  cases listed with
  | error e | ok entries => trivial

theorem handleApprovalMyRequests_within : Within F (handleApprovalMyRequests req) := by
  unfold handleApprovalMyRequests
  split
  · trivial
  refine Prog.performs_perform trivial fun listed => ?_
  cases listed with
  | error e => trivial
  | ok keys =>
    refine Prog.performs_bind (myRequestRows_within req keys) fun rows _ => ?_
    have hhistory := listHistoryEntriesForUser_outside req.entityID
    refine Prog.performs_bind hhistory.within fun entries _ => ?_
    cases entries with
    | error e | ok entries => trivial

theorem handleApprovalHistory_outside : StaysOutside (handleApprovalHistory core req) := by
  refine Prog.performs_bind (approverGate_reads core req).outside fun gate _ => ?_
  cases gate with
  | some e => trivial
  | none =>
    refine Prog.performs_bind listAllHistoryEntries_outside fun listed _ => ?_
    cases listed with
    | error e | ok entries => trivial

end VaultProofs.ListingFootprints
