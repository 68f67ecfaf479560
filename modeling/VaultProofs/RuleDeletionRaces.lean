import VaultProofs.EntryRaces
import VaultProofs.ApprovalRuns

/-!
Deleting a rule while other calls run. The delete call lists the entries, reads
them one by one, deletes those of the rule, and last deletes the rule.
-/

namespace VaultProofs.RuleDeletionRaces

open JsonValues EffectPrograms ConcurrentPrograms ApprovalEntries VaultEffects ApprovalInterceptor
open RuleHandlers ApprovalRuns EntryRaces

def storageMachine : Machine vault Env World where
  exec := exec
  access _ := .none

def NoOrphans (ruleID : String) (store : Store) : Prop :=
  ∀ id p, storedPending store id = some p → p.ruleID ≠ ruleID

def Skips (id : String) (op : VaultOp) : Prop :=
  op ≠ .storageGet (pendingKey id) ∧ op ≠ .storageDelete (pendingKey id)

/-- Whatever the answers, the program no longer reads or deletes the entry. -/
def Past {α : Type} (id : String) (p : VaultProg α) : Prop :=
  p.Performs (Skips id) fun _ => True

section Interleavings

variable {ι : Type} [DecidableEq ι]

def startDelete (core : Core) (ruleID : String) (calls : ι → Call) (w : World) :
    Pool vault (Option ι) World Reply :=
  Pool.start w fun
    | none => handleApprovalRuleDelete ruleID
    | some i => (calls i).prog core

/-- If the next operation of another call stores an entry of the rule, the delete call has yet to
visit it. -/
def Timely (ruleID : String) (thread : Option ι) (c : Pool vault (Option ι) World Reply) : Prop :=
  ∀ i id value next p, thread = some i →
    c.threads (some i) = .call (.storagePut (pendingKey id) value) next →
    PendingRequest.decodeJSON value = some p → p.ruleID = ruleID → ¬ Past id (c.threads none)

def interleaveDelete (core : Core) (ruleID : String) (calls : ι → Call) (w : World)
    (schedule : List (Option ι × Env)) : Pool vault (Option ι) World Reply :=
  Pool.runSchedule storageMachine schedule (startDelete core ruleID calls w)

def TimelyWrites (core : Core) (ruleID : String) (calls : ι → Call) (w : World)
    (schedule : List (Option ι × Env)) : Prop :=
  Pool.Along storageMachine (fun thread _ c => Timely ruleID thread c) schedule
    (startDelete core ruleID calls w)

end Interleavings

inductive SweepPhase where
  | listing
  | visiting (keys : List String)
  | deleting (key : String) (rest : List String)
  | done (reply : Reply)

def sweeping (ruleID : String) (work : VaultProg Unit) : VaultProg Reply := do
  let _ ← work >>= fun _ => pure (Except.ok (ε := GoError) ())
  match ← storageDelete (configKey ruleID) with
  | .error e => return failedReply e
  | .ok () => return {}

namespace SweepPhase

def prog (ruleID : String) : SweepPhase → VaultProg Reply
  | .listing => handleApprovalRuleDelete ruleID
  | .visiting keys => sweeping ruleID (sweepKeys ruleID keys)
  | .deleting key rest => sweeping ruleID do
      let _ ← storageDelete (pendingKey key)
      sweepKeys ruleID rest
  | .done reply => .ret reply

def Ahead (id : String) : SweepPhase → Prop
  | .listing => True
  | .visiting keys => id ∈ keys
  | .deleting key rest => id ∈ key :: rest
  | .done _ => False

end SweepPhase

variable {ruleID id : String}

theorem past_bind {α β : Type} {p : VaultProg α} {f : α → VaultProg β} (hp : Past id p)
    (hf : ∀ value, Past id (f value)) : Past id (p >>= f) :=
  Prog.performs_bind hp fun value _ => hf value

theorem skips_get {key : Key} (h : key ≠ pendingKey id) : Skips id (.storageGet key) :=
  ⟨fun heq => h (VaultOp.storageGet.inj heq), nofun⟩

theorem skips_delete {key : Key} (h : key ≠ pendingKey id) : Skips id (.storageDelete key) :=
  ⟨nofun, fun heq => h (VaultOp.storageDelete.inj heq)⟩

theorem past_sweepKeys {keys : List String} (hid : id ∉ keys) :
    Past id (sweepKeys ruleID keys) := by
  induction keys with
  | nil => trivial
  | cons key rest ih =>
    have hne := pendingKey_ne (List.ne_of_not_mem_cons hid).symm
    have hrest := ih (List.not_mem_of_not_mem_cons hid)
    have hread : Past id (storageGet (pendingKey key)) := ⟨skips_get hne, fun _ => trivial⟩
    apply past_bind
    · exact past_bind hread fun _ => trivial
    intro found
    split
    · split
      · exact ⟨skips_delete hne, fun _ => hrest⟩
      · exact hrest
    · exact hrest

theorem past_sweeping {work : VaultProg Unit} (hwork : Past id work) :
    Past id (sweeping ruleID work) := by
  apply past_bind
  · exact past_bind hwork fun _ => trivial
  intro swept
  refine ⟨skips_delete nofun, fun answer => ?_⟩
  cases answer with
  | error e | ok done => trivial

variable {phase : SweepPhase}

theorem past_of_not_ahead (hid : ¬ phase.Ahead id) : Past id (phase.prog ruleID) := by
  cases phase with
  | listing => exact (hid trivial).elim
  | visiting keys => exact past_sweeping (past_sweepKeys hid)
  | deleting key rest =>
    refine past_sweeping ⟨skips_delete (pendingKey_ne (List.ne_of_not_mem_cons hid).symm), ?_⟩
    exact fun _ => past_sweepKeys (List.not_mem_of_not_mem_cons hid)
  | done reply => trivial

theorem not_ahead_of_ret {reply : Reply} (hphase : phase.prog ruleID = .ret reply) (id : String) :
    ¬ phase.Ahead id := by
  cases phase with
  | listing | deleting key rest => cases hphase
  | visiting keys =>
    cases keys with
    | nil => cases hphase
    | cons key rest => cases hphase
  | done reply => exact not_false

/-- Every stored entry of the rule is still ahead of the delete call. -/
def Pursued (ruleID : String) (phase : SweepPhase) (store : Store) : Prop :=
  ∀ id p, storedPending store id = some p → p.ruleID = ruleID → phase.Ahead id

variable {store : Store}

theorem pursued_erase (h : Pursued ruleID phase store) (key : Key) :
    Pursued ruleID phase (store.erase key) := by
  intro id p hp hrule
  by_cases hkey : key = pendingKey id
  · rw [hkey, storedPending_erase_self] at hp
    cases hp
  · rw [storedPending_erase_of_ne store id hkey] at hp
    exact h id p hp hrule

theorem pursued_insert (h : Pursued ruleID phase store) {key : Key} {value : Json}
    (hvalue : ∀ id p, key = pendingKey id → PendingRequest.decodeJSON value = some p →
      p.ruleID = ruleID → phase.Ahead id) :
    Pursued ruleID phase (store.insert key (.json value)) := by
  intro id p hp hrule
  by_cases hkey : key = pendingKey id
  · rw [hkey, storedPending_insert_self] at hp
    exact hvalue id p hkey hp hrule
  · rw [storedPending_insert_of_ne store id _ hkey] at hp
    exact h id p hp hrule

variable {key : String} {rest : List String}

theorem pursued_erase_self (h : Pursued ruleID (.deleting key rest) store) :
    Pursued ruleID (.visiting rest) (store.erase (pendingKey key)) := by
  intro id p hp hrule
  by_cases hkey : id = key
  · rw [hkey, storedPending_erase_self] at hp
    cases hp
  · rw [storedPending_erase_of_ne store id (pendingKey_ne (Ne.symm hkey))] at hp
    exact (List.mem_cons.mp (h id p hp hrule)).resolve_left hkey

theorem pursued_skip (h : Pursued ruleID (.visiting (key :: rest)) store)
    (hkey : ∀ p, storedPending store key = some p → p.ruleID ≠ ruleID) :
    Pursued ruleID (.visiting rest) store := by
  intro id p hp hrule
  rcases List.mem_cons.mp (h id p hp hrule) with rfl | hrest
  · exact (hkey p hp hrule).elim
  · exact hrest

def afterRead (ruleID key : String) (rest : List String) (store : Store) : SweepPhase :=
  match storedPending store key with
  | none => .visiting rest
  | some r => if r.ruleID = ruleID then .deleting key rest else .visiting rest

theorem pursued_afterRead (h : Pursued ruleID (.visiting (key :: rest)) store) :
    Pursued ruleID (afterRead ruleID key rest store) store := by
  unfold afterRead
  split
  · rename_i hnone
    exact pursued_skip h fun p hp => by rw [hnone] at hp; cases hp
  rename_i r hr
  split
  · exact h
  rename_i hrule
  refine pursued_skip h fun p hp => ?_
  obtain rfl := Option.some.inj (hr.symm.trans hp)
  exact hrule

theorem sweeping_found (ruleID key : String) (rest : List String) (store : Store) :
    sweeping ruleID (match decodeEntry PendingRequest.decodeJSON
        (.ok (store.lookup (pendingKey key))) with
      | .ok (some r) =>
        if r.ruleID = ruleID then do
          let _ ← storageDelete (pendingKey key)
          sweepKeys ruleID rest
        else sweepKeys ruleID rest
      | _ => sweepKeys ruleID rest) = (afterRead ruleID key rest store).prog ruleID := by
  unfold afterRead storedPending
  cases store.lookup (pendingKey key) with
  | none => rfl
  | some blob =>
    simp only [Option.bind_some, decodeEntry]
    cases blob.decode PendingRequest.decodeJSON with
    | none => rfl
    | some r =>
      simp only
      split <;> rfl

theorem pursued_step {env : Env} (henv : env.Reliable) {op : VaultOp}
    {next : op.Answer → VaultProg Reply} (hprog : phase.prog ruleID = .call op next) {w : World}
    (h : Pursued ruleID phase w.store) :
    ∃ phase' : SweepPhase, next (exec env op w).1 = phase'.prog ruleID ∧
      Pursued ruleID phase' (exec env op w).2.store := by
  cases phase with
  | listing =>
    cases hprog
    rw [exec_storageList henv]
    refine ⟨.visiting (env.listOrder (folderNames w.store .pending)), rfl, ?_⟩
    intro id p hp _
    exact (env.listOrder_perm _).mem_iff.mpr (mem_folderNames hp)
  | visiting keys =>
    cases keys with
    | nil =>
      cases hprog
      rw [exec_storageDelete henv]
      exact ⟨.done {}, rfl, fun id p hp hrule => nomatch pursued_erase h _ id p hp hrule⟩
    | cons key rest =>
      cases hprog
      rw [exec_storageGet henv]
      exact ⟨_, sweeping_found ruleID key rest w.store, pursued_afterRead h⟩
  | deleting key rest =>
    cases hprog
    rw [exec_storageDelete henv]
    exact ⟨.visiting rest, rfl, pursued_erase_self h⟩
  | done reply => cases hprog

section Interleavings

variable {ι : Type} [DecidableEq ι]

/-- The delete call is in a phase in which every stored entry of the rule is ahead. -/
def Chasing (ruleID : String) (c : Pool vault (Option ι) World Reply) : Prop :=
  ∃ phase : SweepPhase, c.threads none = phase.prog ruleID ∧ Pursued ruleID phase c.state.store

theorem pursued_exec {ruleID : String} {env : Env} (henv : env.Reliable) {phase : SweepPhase}
    {op : VaultOp} {w : World} (h : Pursued ruleID phase w.store)
    (hput : ∀ id value p, op = .storagePut (pendingKey id) value →
      PendingRequest.decodeJSON value = some p → p.ruleID = ruleID → phase.Ahead id) :
    Pursued ruleID phase (exec env op w).2.store := by
  cases op with
  | storageGet key => rwa [exec_storageGet_snd]
  | storagePut key value =>
    rw [exec_storagePut henv]
    exact pursued_insert h fun id p hkey => hput id value p (by rw [hkey])
  | storageDelete key =>
    rw [exec_storageDelete henv]
    exact pursued_erase h key
  | storageList folder => rwa [exec_storageList_snd]
  | timeNow | generateUUID | doRouting req => exact h
  | registerLease req resp =>
    simp only [exec]
    split <;> exact h

theorem chasing_advance {ruleID : String} {env : Env} (henv : env.Reliable) {thread : Option ι}
    {c : Pool vault (Option ι) World Reply} (htimely : Timely ruleID thread c)
    (hc : Chasing ruleID c) : Chasing ruleID (c.advance storageMachine thread env) := by
  obtain ⟨phase, hphase, hahead⟩ := hc
  unfold Pool.advance
  split
  · exact ⟨phase, hphase, hahead⟩
  rename_i op next hop
  cases thread with
  | none =>
    obtain ⟨phase', hnext, hahead'⟩ := pursued_step henv (hphase.symm.trans hop) hahead
    exact ⟨phase', by simpa [storageMachine] using hnext, hahead'⟩
  | some i =>
    refine ⟨phase, by simpa using hphase, pursued_exec henv hahead ?_⟩
    rintro id value p rfl hvalue hrule
    have hvisit := htimely i id value next p rfl hop hvalue hrule
    rw [hphase] at hvisit
    exact by_contra fun hid => hvisit (past_of_not_ahead hid)

/-- Once the delete call has returned, no entry of the rule is left, if no other call stores one
under a name that the delete call is past. -/
theorem noOrphans_of_timelyWrites (core : Core) (ruleID : String) (calls : ι → Call) (w : World)
    (schedule : List (Option ι × Env)) (hreliable : ∀ move ∈ schedule, move.2.Reliable)
    (htimely : TimelyWrites core ruleID calls w schedule) {reply : Reply}
    (hreturned : (interleaveDelete core ruleID calls w schedule).threads none = .ret reply) :
    NoOrphans ruleID (interleaveDelete core ruleID calls w schedule).state.store := by
  have hchasing : Chasing ruleID (interleaveDelete core ruleID calls w schedule) := by
    refine Pool.runSchedule_preserves ?_ schedule _ hreliable htimely ?_
    · exact fun thread env c henv => chasing_advance henv
    · exact ⟨.listing, rfl, fun _ _ _ _ => trivial⟩
  obtain ⟨phase, hphase, hahead⟩ := hchasing
  intro id p hp hrule
  exact not_ahead_of_ret (hphase.symm.trans hreturned) id (hahead id p hp hrule)

end Interleavings

def sampleCalls (_ : Unit) : Call :=
  .request false (some ["default"]) sampleRequest

def turns (thread : Option Unit) (n : Nat) : List (Option Unit × Env) :=
  List.replicate n (thread, sampleEnv)

/-- The read has matched the rule and passed the guard when the delete call runs; then it stores its
entry. -/
def lateSchedule : List (Option Unit × Env) :=
  turns (some ()) 5 ++ turns none 2 ++ turns (some ()) 1

def earlySchedule : List (Option Unit × Env) :=
  turns (some ()) 6 ++ turns none 4

theorem turns_reliable (thread : Option Unit) (n : Nat) :
    ∀ move ∈ turns thread n, move.2.Reliable := by
  intro move hmove
  rw [(List.mem_replicate.mp hmove).2]
  exact sampleEnv_reliable

theorem lateSchedule_reliable : ∀ move ∈ lateSchedule, move.2.Reliable := by
  simp only [lateSchedule, List.forall_mem_append]
  exact ⟨⟨turns_reliable _ _, turns_reliable _ _⟩, turns_reliable _ _⟩

theorem earlySchedule_reliable : ∀ move ∈ earlySchedule, move.2.Reliable :=
  List.forall_mem_append.mpr ⟨turns_reliable _ _, turns_reliable _ _⟩

/-- Both calls have returned, and an entry of the deleted rule is stored. -/
theorem orphan_lateSchedule :
    (∀ move ∈ lateSchedule, move.2.Reliable) ∧
    (∀ thread, ∃ reply, (interleaveDelete sampleCore "db" sampleCalls ruleWorld
      lateSchedule).threads thread = .ret reply) ∧
    storedRule (interleaveDelete sampleCore "db" sampleCalls ruleWorld
      lateSchedule).state.store "db" = none ∧
    ¬ NoOrphans "db" (interleaveDelete sampleCore "db" sampleCalls ruleWorld
      lateSchedule).state.store := by
  refine ⟨lateSchedule_reliable, ?_, rfl, ?_⟩
  · intro thread
    cases thread with
    | none | some i => exact ⟨_, rfl⟩
  · exact fun h => h "5d2b6e0c" (parkedRequest sampleRequest (sampleRule 1) "5d2b6e0c" 1).normalize
      rfl rfl

theorem not_past_start (ruleID id : String) : ¬ Past id (handleApprovalRuleDelete ruleID) :=
  fun h => (h.2 (.ok [id])).1.1 rfl

theorem earlySchedule_timely :
    TimelyWrites sampleCore "db" sampleCalls ruleWorld earlySchedule := by
  have hearly : ∀ thread (c : Pool vault (Option Unit) World Reply),
      c.threads none = handleApprovalRuleDelete "db" → Timely "db" thread c := by
    intro thread c hc i id value next p _ _ _ _
    rw [hc]
    exact not_past_start "db" id
  have hdelete : ∀ c : Pool vault (Option Unit) World Reply, Timely "db" none c :=
    fun _ _ _ _ _ _ h => nomatch h
  exact ⟨hearly _ _ rfl, hearly _ _ rfl, hearly _ _ rfl, hearly _ _ rfl, hearly _ _ rfl,
    hearly _ _ rfl, hdelete _, hdelete _, hdelete _, hdelete _, trivial⟩

theorem noOrphans_earlySchedule :
    NoOrphans "db" (interleaveDelete sampleCore "db" sampleCalls ruleWorld
      earlySchedule).state.store :=
  noOrphans_of_timelyWrites sampleCore "db" sampleCalls ruleWorld earlySchedule
    earlySchedule_reliable earlySchedule_timely rfl

end VaultProofs.RuleDeletionRaces
