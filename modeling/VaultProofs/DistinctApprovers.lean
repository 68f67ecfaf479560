import VaultProofs.ApprovalRuns

/-!
How many approvers stand behind an execution. The handler compares the number of votes with the
threshold and refuses a second vote of an entity, but not of a token without one.
-/

namespace VaultProofs.DistinctApprovers

open ApprovalEntries VaultEffects ApprovalInterceptor EffectFootprints ApprovalHandlers
open ApprovalExecution HandlerFootprints RunHistories ApprovalRuns

inductive Voter where
  | entity (id : String)
  | token (token : String)
  deriving DecidableEq

def Voter.entityID : Voter → String
  | .entity id => id
  | .token _ => ""

def voterOf (req : Request) : Voter :=
  if req.entityID = "" then .token req.clientToken else .entity req.entityID

@[simp] theorem entityID_voterOf (req : Request) : (voterOf req).entityID = req.entityID := by
  unfold voterOf
  split
  · rename_i hempty
    exact hempty.symm
  · rfl

def votersOf (id : String) : Call → List Voter
  | .approve req id' => if id' = id then [voterOf req] else []
  | _ => []

def voteCount (store : Store) (id : String) : Nat :=
  match storedPending store id with
  | some p => p.approvals.length
  | none => 0

variable {p : PendingRequest}

theorem voteCount_of_stored {store : Store} {id : String} (hp : storedPending store id = some p) :
    voteCount store id = p.approvals.length := by
  simp [voteCount, hp]

structure Ledger where
  world : World
  voters : String → List Voter

-- A vote that was taken back is cut off again, as are the votes of a removed entry.
def Ledger.record (l : Ledger) (s : Step) : Ledger where
  world := s.apply l.world
  voters id := (l.voters id ++ votersOf id s.call).take (voteCount (s.apply l.world).store id)

def ledger (steps : List Step) : Ledger :=
  final Ledger.record ⟨{ store := ∅ }, fun _ => []⟩ steps

@[simp] theorem ledger_world (steps : List Step) : (ledger steps).world = finalWorld steps := by
  refine final_induction (K := fun steps (l : Ledger) => l.world = finalWorld steps) rfl ?_ steps
  intro steps s ih
  rw [finalWorld_concat, ← ih]
  rfl

/-- A caller without an entity votes only on entries without a vote of its token. -/
def TokensVoteOnce (steps : List Step) : Prop :=
  ∀ before s, Occurs before s steps → ∀ req id, s.call = .approve req id →
    req.entityID = "" → voterOf req ∉ (ledger before).voters id

/-- Whenever an approve call dispatches, the votes of the entry, with the one just cast, are from at
least as many approvers as the rule requires. -/
def DistinctThreshold (steps : List Step) : Prop :=
  ∀ before s, Occurs before s steps → ∀ req id, s.call = .approve req id →
    (finalWorld before).routed.length < (s.apply (finalWorld before)).routed.length →
    ∃ p rule, storedPending (finalWorld before).store id = some p ∧
      storedRule (finalWorld before).store p.ruleID = some rule ∧
      (castVote req p s.env.now).approvals.map ApprovalRecord.approverEntityID =
        ((ledger before).voters id ++ [voterOf req]).map Voter.entityID ∧
      rule.approvalsRequired ≤ ((ledger before).voters id ++ [voterOf req]).dedup.length

/-- The ledger lists the voters of the entry, and none of them twice. -/
structure Tally (voters : List Voter) (p : PendingRequest) : Prop where
  entities : p.approvals.map ApprovalRecord.approverEntityID = voters.map Voter.entityID
  nodup : voters.Nodup

variable {voters : List Voter}

theorem Tally.length_eq (h : Tally voters p) : voters.length = p.approvals.length := by
  simpa using (congrArg List.length h.entities).symm

theorem Tally.not_mem (h : Tally voters p) {req : Request}
    (hfirst : hasVoted req.entityID p = false) (hone : req.entityID = "" → voterOf req ∉ voters) :
    voterOf req ∉ voters := by
  by_cases hempty : req.entityID = ""
  · exact hone hempty
  intro hmem
  have hentity : (voterOf req).entityID ∈ voters.map Voter.entityID := List.mem_map_of_mem hmem
  rw [← h.entities, entityID_voterOf] at hentity
  obtain ⟨record, hrecord, heq⟩ := List.mem_map.mp hentity
  have hvoted : hasVoted req.entityID p = true :=
    List.any_eq_true.mpr ⟨record, hrecord, by simp [heq, hempty]⟩
  rw [hvoted] at hfirst
  cases hfirst

theorem Tally.concat (h : Tally voters p) {req : Request} (hnew : voterOf req ∉ voters)
    (now : JsonValues.Time) :
    Tally (voters ++ [voterOf req]) (castVote req p now) where
  entities := by simp [castVote, h.entities]
  nodup := h.nodup.append (List.nodup_singleton _) (List.disjoint_singleton.mpr hnew)

theorem tally_record {s : Step} {l : Ledger} (hkeyed : Keyed l.world.store)
    (ih : ∀ id p, storedPending l.world.store id = some p → Tally (l.voters id) p)
    (hone : ∀ req id, s.call = .approve req id → req.entityID = "" →
      voterOf req ∉ l.voters id) {id : String} {q : PendingRequest}
    (hq : storedPending (l.record s).world.store id = some q) :
    Tally ((l.record s).voters id) q := by
  have hcount := voteCount_of_stored hq
  have hvoters : (l.record s).voters id =
      (l.voters id ++ votersOf id s.call).take q.approvals.length := by
    rw [← hcount]
    rfl
  rw [hvoters]
  cases voteChange s hkeyed hq with
  | kept hentry hsame hvotes =>
    have htally := ih id _ hentry
    rw [hvotes, ← htally.length_eq, List.take_left]
    exact ⟨hvotes ▸ htally.entities, htally.nodup⟩
  | parked hvotes =>
    rw [hvotes]
    exact ⟨by rw [hvotes]; rfl, List.nodup_nil⟩
  | @voted req p rule hcall hadmitted hsame hvotes =>
    have htally := ih id _ hadmitted.entry
    have hnew := htally.not_mem hadmitted.first (hone req id hcall)
    have hcast := htally.concat hnew s.env.now
    have happrovals : q.approvals = (castVote req p s.env.now).approvals := hvotes
    have hlist : votersOf id s.call = [voterOf req] := by simp [hcall, votersOf]
    rw [hlist, happrovals, ← hcast.length_eq, List.take_length]
    exact ⟨happrovals ▸ hcast.entities, hcast.nodup⟩

theorem tally (steps : List Step) (hsteps : TokensVoteOnce steps) (id : String)
    (p : PendingRequest) (hp : storedPending (finalWorld steps).store id = some p) :
    Tally ((ledger steps).voters id) p := by
  rw [← ledger_world] at hp
  refine final_induction (K := fun steps (l : Ledger) => TokensVoteOnce steps →
    ∀ id p, storedPending l.world.store id = some p → Tally (l.voters id) p) ?_ ?_
    steps hsteps id p hp
  · intro _ id p hp
    cases hp
  intro steps s ih hsteps id q hq
  refine tally_record ?_ (ih fun before s' hoccurs => hsteps before s' (hoccurs.concat s)) ?_ hq
  · have hkeyed := keyed_finalWorld steps
    rwa [← ledger_world] at hkeyed
  · exact hsteps steps s (occurs_concat_self steps s)

theorem exists_of_routed {F : Footprint} {α : Type} {env : Env} {prog : VaultProg α} {w : World}
    (hp : RunsWithin env F prog w)
    (hrouted : w.routed.length < (prog.run (exec env) w).2.routed.length) :
    ∃ req, F.routes req := by
  by_contra hnone
  rw [run_routed hp (not_exists.mp hnone)] at hrouted
  exact Nat.lt_irrefl _ hrouted

/-- In every run in which no token without an entity votes twice on an entry, every execution has
its threshold of different approvers. -/
theorem distinctThreshold_of_tokensVoteOnce (steps : List Step) (hsteps : TokensVoteOnce steps) :
    DistinctThreshold steps := by
  intro before s hoccurs req id hcall hrouted
  obtain ⟨later, rfl⟩ := hoccurs
  have hbefore : TokensVoteOnce before := by
    rintro before' s' ⟨later', rfl⟩
    exact hsteps before' s' ⟨later' ++ s :: later, by simp⟩
  have hwithin := s.runsWithin (finalWorld before)
  have hfootprint : s.footprint (finalWorld before) =
      voting s.core s.env.now (finalWorld before).store req id := by
    simp [Step.footprint, hcall]
  rw [hfootprint] at hwithin
  obtain ⟨-, p, rule, hadmitted, hmet⟩ := exists_of_routed hwithin hrouted
  have htally := tally before hbefore id p hadmitted.entry
  have hnew := htally.not_mem hadmitted.first
    (hsteps before s ⟨later, rfl⟩ req id hcall)
  have hcast := htally.concat hnew s.env.now
  refine ⟨p, rule, hadmitted.entry, hadmitted.ruleStored, hcast.entities, ?_⟩
  rw [hcast.nodup.dedup, hcast.length_eq]
  exact of_decide_eq_true hmet

theorem tokensVoteOnce_of_entities {steps : List Step}
    (h : ∀ s ∈ steps, ∀ req id, s.call = .approve req id → req.entityID ≠ "") :
    TokensVoteOnce steps := by
  intro before s hoccurs req id hcall hempty
  exact (h s hoccurs.mem req id hcall hempty).elim

def rootCaller : Request := { clientToken := "root" }

/-- The same root token approves twice, and the request that needs two approvals is
dispatched. -/
theorem not_distinctThreshold_rootCaller :
    ¬ DistinctThreshold (sampleRun 2 [rootCaller, rootCaller]) := by
  intro h
  obtain ⟨p, rule, hp, hrule, -, hle⟩ := h (sampleRun 2 [rootCaller])
    ⟨sampleCore, sampleEnv, .approve rootCaller "5d2b6e0c"⟩ ⟨[], rfl⟩ rootCaller "5d2b6e0c" rfl
    (by decide)
  have hid : (storedPending (finalWorld (sampleRun 2 [rootCaller])).store "5d2b6e0c").map
      PendingRequest.ruleID = some "db" := by decide
  have hrequired : (storedRule (finalWorld (sampleRun 2 [rootCaller])).store "db").map
      ApprovalRule.approvalsRequired = some 2 := by decide
  have hvoters : ((ledger (sampleRun 2 [rootCaller])).voters "5d2b6e0c" ++
      [voterOf rootCaller]).dedup.length = 1 := by decide
  rw [hp] at hid
  rw [Option.some.inj hid] at hrule
  rw [hrule] at hrequired
  rw [hvoters, Option.some.inj hrequired] at hle
  cases hle

theorem distinctThreshold_entities :
    (finalWorld (sampleRun 2 [sampleApprover, { entityID := "bob" }])).routed.length = 1 ∧
      DistinctThreshold (sampleRun 2 [sampleApprover, { entityID := "bob" }]) := by
  refine ⟨by decide, distinctThreshold_of_tokensVoteOnce _ (tokensVoteOnce_of_entities ?_)⟩
  intro s hs req id hcall
  simp only [sampleRun, List.map_cons, List.map_nil, List.cons_append, List.nil_append,
    List.mem_cons, List.not_mem_nil, or_false] at hs
  rcases hs with rfl | rfl | rfl | rfl <;> cases hcall <;> decide

end VaultProofs.DistinctApprovers
