import VaultProofs.ApprovalRuns

/-!
Where the votes of an entry come from: each was appended by an approve call whose caller was
entitled to vote at that moment, and no entity has two.
-/

namespace VaultProofs.VoteAuthenticity

open GoStrings ApprovalEntries VaultEffects ApprovalInterceptor ApprovalHandlers ApprovalExecution
open HandlerFootprints RunHistories ApprovalRuns

/-- The step `s` after the run `before` is an approve call that appended the record
to the entry of which `q` is a later state. `p` is the entry and `rule` its rule
when the call was made. -/
structure Appends (before : List Step) (s : Step) (id : String) (q : PendingRequest)
    (record : ApprovalRecord) (req : Request) (p : PendingRequest) (rule : ApprovalRule) :
    Prop where
  call : s.call = .approve req id
  entry : storedPending (finalWorld before).store id = some p
  same : SameRequest p q
  ruleStored : storedRule (finalWorld before).store q.ruleID = some rule
  record_eq : record = ⟨req.entityID, s.env.now⟩
  appended : ∃ q', storedPending (s.apply (finalWorld before)).store id = some q' ∧
    q'.approvals = p.approvals ++ [record]
  authorized : callerIsRoot s.core req = true ∨ ∃ approver ∈ rule.authorizedApprovers,
    equalFold s.core.foldRune approver (ofString req.entityID) = true
  notRequester : callerIsRoot s.core req = true ∨ rule.allowSelfApproval = true ∨
    req.entityID ≠ q.requesterEntityID

def Authentic (steps : List Step) (id : String) (q : PendingRequest) (record : ApprovalRecord) :
    Prop :=
  ∃ before s, Occurs before s steps ∧ ∃ req p rule, Appends before s id q record req p rule

/-- No two records carry the same entity ID, the empty one excepted. -/
def OneVoteEach (approvals : List ApprovalRecord) : Prop :=
  approvals.Pairwise fun a b => a.approverEntityID ≠ "" → a.approverEntityID ≠ b.approverEntityID

theorem Authentic.of_same {steps : List Step} {id : String} {p q : PendingRequest}
    {record : ApprovalRecord} (h : Authentic steps id p record) (hsame : SameRequest p q)
    (s : Step) : Authentic (steps ++ [s]) id q record := by
  obtain ⟨before, s', hoccurs, req, p', rule, happends⟩ := h
  refine ⟨before, s', hoccurs.concat s, req, p', rule,
    { happends with same := happends.same.trans hsame, ruleStored := ?_, notRequester := ?_ }⟩
  · rw [hsame.ruleID]
    exact happends.ruleStored
  · rw [hsame.requesterEntityID]
    exact happends.notRequester

theorem exists_approver {core : Core} {entityID : String} {approvers : List GoString}
    (h : approvalEntityIsAuthorized core entityID approvers = true) :
    entityID ≠ "" ∧ ∃ approver ∈ approvers,
      equalFold core.foldRune approver (ofString entityID) = true := by
  unfold approvalEntityIsAuthorized at h
  split at h
  · cases h
  · rename_i hne
    exact ⟨hne, List.any_eq_true.mp h⟩

/-- The checks of the handler: the empty entity ID is nobody's unless the caller is
root, so comparing IDs decides who the requester is. -/
theorem appends_of_voted {before : List Step} {s : Step} {id : String} {req : Request}
    {p q : PendingRequest} {rule : ApprovalRule} (hcall : s.call = .approve req id)
    (h : Admitted s.core s.env.now (finalWorld before).store req id p rule)
    (hq : storedPending (s.apply (finalWorld before)).store id = some q)
    (hsame : SameRequest p q) (hvotes : q.approvals = p.approvals ++ [⟨req.entityID, s.env.now⟩]) :
    Appends before s id q ⟨req.entityID, s.env.now⟩ req p rule where
  call := hcall
  entry := h.entry
  same := hsame
  ruleStored := hsame.ruleID.symm ▸ h.ruleStored
  record_eq := rfl
  appended := ⟨q, hq, hvotes⟩
  authorized := h.authorized.imp_right fun hlisted => (exists_approver hlisted).2
  notRequester := by
    rcases h.authorized with hroot | hlisted
    · exact .inl hroot
    refine h.notOwn.imp_right (Or.imp_right ?_)
    intro hother hown
    have hne := (exists_approver hlisted).1
    have hrequester : req.entityID = p.requesterEntityID := hown.trans hsame.requesterEntityID
    simp [selfApproval, hrequester, hrequester ▸ hne] at hother

theorem oneVoteEach_concat {p : PendingRequest} (h : OneVoteEach p.approvals)
    {entityID : String} (now : JsonValues.Time) (hfirst : hasVoted entityID p = false) :
    OneVoteEach (p.approvals ++ [⟨entityID, now⟩]) := by
  refine List.pairwise_append.mpr ⟨h, List.pairwise_singleton _ _, ?_⟩
  intro record hrecord last hlast hne
  obtain rfl := List.mem_singleton.mp hlast
  rintro rfl
  have hvoted : hasVoted record.approverEntityID p = true :=
    List.any_eq_true.mpr ⟨record, hrecord, by simpa using hne⟩
  rw [hvoted] at hfirst
  cases hfirst

/-- In every reachable state every vote is authentic and no entity has two votes on
one entry. -/
theorem votes_authentic (steps : List Step) (id : String) (q : PendingRequest)
    (hq : storedPending (finalWorld steps).store id = some q) :
    (∀ record ∈ q.approvals, Authentic steps id q record) ∧ OneVoteEach q.approvals := by
  refine final_induction (K := fun steps (w : World) => ∀ id q, storedPending w.store id = some q →
    (∀ record ∈ q.approvals, Authentic steps id q record) ∧ OneVoteEach q.approvals)
    ?_ ?_ steps id q hq
  · intro id q hq
    cases hq
  intro steps s ih id q hq
  cases voteChange s (keyed_finalWorld steps) hq with
  | kept hentry hsame hvotes =>
    obtain ⟨hauthentic, hone⟩ := ih id _ hentry
    rw [hvotes]
    exact ⟨fun record hrecord => (hauthentic record hrecord).of_same hsame s, hone⟩
  | parked hvotes =>
    rw [hvotes]
    exact ⟨nofun, List.Pairwise.nil⟩
  | voted hcall hadmitted hsame hvotes =>
    obtain ⟨hauthentic, hone⟩ := ih id _ hadmitted.entry
    constructor
    · intro record hrecord
      rw [hvotes] at hrecord
      rcases List.mem_append.mp hrecord with hold | hnew
      · exact (hauthentic record hold).of_same hsame s
      · obtain rfl := List.mem_singleton.mp hnew
        exact ⟨steps, s, occurs_concat_self steps s, _, _, _,
          appends_of_voted hcall hadmitted hq hsame hvotes⟩
    · rw [hvotes]
      exact oneVoteEach_concat hone _ hadmitted.first

theorem votes_authentic_sampleRun :
    ∃ q, storedPending (finalWorld (sampleRun 2 [sampleApprover])).store "5d2b6e0c" = some q ∧
      q.approvals.length = 1 ∧
      (∀ record ∈ q.approvals,
        Authentic (sampleRun 2 [sampleApprover]) "5d2b6e0c" q record) ∧
      OneVoteEach q.approvals := by
  have hvotes : (storedPending (finalWorld (sampleRun 2 [sampleApprover])).store "5d2b6e0c").map
      (fun q => q.approvals.length) = some 1 := by decide
  obtain ⟨q, hq, hlength⟩ := Option.map_eq_some_iff.mp hvotes
  exact ⟨q, hq, hlength, votes_authentic _ _ q hq⟩

end VaultProofs.VoteAuthenticity
