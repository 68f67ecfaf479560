import VaultProofs.HandlerMoves

/-!
The history of resolved requests. A request is resolved when its entry is removed by a fetch or by a
time limit, or when it is denied.
-/

namespace VaultProofs.AuditTrail

open GoStrings JsonValues ApprovalEntries VaultEffects ApprovalInterceptor ApprovalHandlers
open ApprovalExecution RunHistories ApprovalRuns EntryRegistry HandlerMoves

/-- The step `s`, taken in `w`, resolves the request. -/
inductive Resolved (s : Step) (w : World) (id : String) : HistoryStatus → Prop where
  | retrieved {req : Request} {p : PendingRequest} (call : s.call = .fetch req id)
      (entry : storedPending w.store id = some p)
      (timely : findsExpired s.env.now p s.call = false)
      (gone : storedPending (s.apply w).store id = none) : Resolved s w id .retrieved
  | expired {p : PendingRequest} (entry : storedPending w.store id = some p)
      (late : findsExpired s.env.now p s.call = true)
      (gone : storedPending (s.apply w).store id = none) : Resolved s w id .expired
  | denied {p q : PendingRequest} (entry : storedPending w.store id = some p)
      (before : p.status ≠ .denied) (written : storedPending (s.apply w).store id = some q)
      (after : q.status = .denied) : Resolved s w id .denied

/-- Every resolved request has a record with its status, until a step is taken more than seven days
later. -/
def Audited (steps : List Step) : Prop :=
  ∀ before s later, steps = before ++ s :: later → ∀ id status,
    Resolved s (finalWorld before) id status →
    (∀ t ∈ later, t.env.now ≤ s.env.now + approvalHistoryTTL) →
    ∃ h, storedHistory (finalWorld steps).store id = some h ∧ h.status = status

/-- The call removes no stored entry that it finds expired. -/
def ClearsNothing (s : Step) (store : Store) : Prop :=
  ∀ id p, storedPending store id = some p → findsExpired s.env.now p s.call = true →
    ¬ Clears s store id p

def FreshIDs (steps : List Step) : Prop :=
  Throughout (fun before s => FreshID s (finalWorld before).store) steps

def NothingCleared (steps : List Step) : Prop :=
  Throughout (fun before s => ClearsNothing s (finalWorld before).store) steps

variable {s : Step} {store : Store} {r : Registry} {id : String} {p : PendingRequest} {slot : Slot}

def RecordedAs (status : HistoryStatus) (limit : Time) (slot : Slot) : Prop :=
  ∃ h, slot.record = some h ∧ h.status = status ∧ h.historyExpiresAt = limit

/-- What a step that clears nothing can make of the slot of the entry `p`. -/
inductive Outcome (s : Step) (p : PendingRequest) (slot : Slot) : Prop where
  | kept (entry : slot.entry = some p)
  | changed (timely : findsExpired s.env.now p s.call = false)
      (call : ∀ req id, s.call ≠ .fetch req id)
      (denied : ∀ q, slot.entry = some q → q.status = .denied →
        RecordedAs .denied (s.env.now + approvalHistoryTTL) slot)
  | fetched {req : Request} {id : String} {status : HistoryStatus} (gone : slot.entry = none)
      (call : s.call = .fetch req id)
      (status_eq : status = if findsExpired s.env.now p s.call then .expired else .retrieved)
      (record : RecordedAs status (s.env.now + approvalHistoryTTL) slot)

theorem removed_entry {record : Option ApprovalHistoryEntry} {P : PendingRequest → Prop} :
    ∀ q, (⟨none, record⟩ : Slot).entry = some q → P q := by
  intro q hq
  cases hq

theorem recordedAs_historyEntry (entry : Option PendingRequest) (status : HistoryStatus)
    (now : Time) (by_ : String) (name : GoString) :
    RecordedAs status (now + approvalHistoryTTL)
      ⟨entry, some (historyEntry p status now by_ name).normalize⟩ :=
  ⟨_, rfl, rfl, rfl⟩

variable {status : HistoryStatus}

theorem RecordedAs.of_eq {limit : Time} {slot' : Slot} (h : RecordedAs status limit slot)
    (hrecord : slot'.record = slot.record) :
    RecordedAs status limit slot' := by
  unfold RecordedAs
  rwa [hrecord]

theorem RecordedAs.not_old {limit now : Time} (hnow : now ≤ limit)
    (hslot : RecordedAs status limit slot) {h : ApprovalHistoryEntry}
    (hrecord : slot.record = some h) : ¬ h.historyExpiresAt < now := by
  obtain ⟨h', hrecord', -, hlimit⟩ := hslot
  obtain rfl := Option.some.inj (hrecord.symm.trans hrecord')
  rw [hlimit]
  exact Int.not_lt.mpr hnow

theorem le_historyLimit (now : Time) : now ≤ now + approvalHistoryTTL :=
  Int.le_add_of_nonneg_right (by decide)

theorem outcome_of_move (hfresh : ∀ bypass auth req, s.call = .request bypass auth req →
      s.env.uuid ≠ .ok id)
    (hclears : findsExpired s.env.now p s.call = true → ¬ Clears s store id p)
    (h : Outcome s p (r id)) (hmove : Move s store r id slot) : Outcome s p slot := by
  cases hmove with
  | park hcall huuid => exact (hfresh _ _ _ hcall huuid).elim
  | @vote req q q' hcall hentry hstatus hlive hwritten =>
    have hnew : ∀ x, some q'.normalize = some x → x.status = .denied →
        RecordedAs .denied (s.env.now + approvalHistoryTTL)
          ⟨some q'.normalize, (r id).record⟩ := by
      rintro x ⟨⟩ hdenied
      exact (hwritten.status_ne_denied hstatus hdenied).elim
    cases h with
    | kept hp =>
      obtain rfl := Option.some.inj (hentry.symm.trans hp)
      refine .changed ?_ (by simp [hcall]) hnew
      simp [hcall, findsExpired, hlive]
    | changed htimely hother => exact .changed htimely hother hnew
    | fetched hgone hfetch => rw [hcall] at hfetch; cases hfetch
  | @deny req q name hcall hentry hstatus hlive =>
    have hnew := recordedAs_historyEntry (p := q) (some { q with status := .denied }.normalize)
      .denied s.env.now req.entityID name
    cases h with
    | kept hp =>
      obtain rfl := Option.some.inj (hentry.symm.trans hp)
      refine .changed ?_ (by simp [hcall]) fun _ _ _ => hnew
      simp [hcall, findsExpired, hlive]
    | changed htimely hother => exact .changed htimely hother fun _ _ _ => hnew
    | fetched hgone hfetch => rw [hcall] at hfetch; cases hfetch
  | retrieve hcall hentry hstatus htimely =>
    cases h with
    | kept hp =>
      obtain rfl := Option.some.inj (hentry.symm.trans hp)
      refine .fetched rfl hcall ?_ (recordedAs_historyEntry none .retrieved s.env.now _ _)
      rw [htimely]
      rfl
    | changed _ hother => exact (hother _ _ hcall).elim
    | fetched hgone => rw [hgone] at hentry; cases hentry
  | expire hcall hentry hlate =>
    cases h with
    | kept hp =>
      obtain rfl := Option.some.inj (hentry.symm.trans hp)
      refine .fetched rfl hcall ?_ (recordedAs_historyEntry none .expired s.env.now _ _)
      rw [hlate]
      rfl
    | changed _ hother => exact (hother _ _ hcall).elim
    | fetched hgone => rw [hgone] at hentry; cases hentry
  | clear hentry hlate hclear =>
    cases h with
    | kept hp =>
      obtain rfl := Option.some.inj (hentry.symm.trans hp)
      exact (hclears hlate hclear).elim
    | changed htimely hother => exact .changed htimely hother removed_entry
    | fetched hgone => rw [hgone] at hentry; cases hentry
  | drop hentry htimely hother =>
    cases h with
    | kept hp =>
      obtain rfl := Option.some.inj (hentry.symm.trans hp)
      exact .changed htimely hother removed_entry
    | changed htimely hother => exact .changed htimely hother removed_entry
    | fetched hgone => rw [hgone] at hentry; cases hentry
  | purge hrecord hold =>
    cases h with
    | kept hp => exact .kept hp
    | changed htimely hother hdenied =>
      refine .changed htimely hother fun q hq hstatus => ?_
      exact ((hdenied q hq hstatus).not_old (le_historyLimit _) hrecord hold).elim
    | fetched hgone hcall hstatus hnew =>
      exact (hnew.not_old (le_historyLimit _) hrecord hold).elim

/-- The request is resolved, and its record is kept until the limit. -/
def Settled (status : HistoryStatus) (limit : Time) (slot : Slot) : Prop :=
  (∀ q, slot.entry = some q → q.status = .denied) ∧ RecordedAs status limit slot

theorem settled_of_move {limit : Time} (hnow : s.env.now ≤ limit)
    (hfresh : ∀ bypass auth req, s.call = .request bypass auth req → s.env.uuid ≠ .ok id)
    (h : Settled status limit (r id)) (hmove : Move s store r id slot) :
    Settled status limit slot := by
  obtain ⟨hentries, hrecorded⟩ := h
  cases hmove with
  | park hcall huuid => exact (hfresh _ _ _ hcall huuid).elim
  | vote hcall hentry hstatus | deny hcall hentry hstatus | retrieve hcall hentry hstatus =>
    rw [hentries _ hentry] at hstatus; cases hstatus
  | expire hcall hentry hlate =>
    simp [hcall, findsExpired, hentries _ hentry] at hlate
  | clear | drop => exact ⟨removed_entry, hrecorded.of_eq rfl⟩
  | purge hrecord hold => exact (hrecorded.not_old hnow hrecord hold).elim

variable {w : World}

theorem settled_of_resolved (henv : s.env.Reliable) (hkeyed : Keyed w.store)
    (hfresh : FreshID s w.store) (hclears : ClearsNothing s w.store) {status : HistoryStatus}
    (h : Resolved s w id status) :
    Settled status (s.env.now + approvalHistoryTTL) (registry (s.apply w).store id) := by
  have houtcome : ∀ p, storedPending w.store id = some p →
      Outcome s p (registry (s.apply w).store id) := by
    intro p hp
    have hentry : (registry w.store id).entry = some p := hp
    refine (Step.leads s henv w hkeyed).keeps_at (K := Outcome s p) ?_ (.kept hentry)
    intro r slot
    refine outcome_of_move (hfresh.uuid_ne ?_) (hclears id p hp)
    exact .inl (by rw [hentry]; rfl)
  cases h with
  | @retrieved req p hcall hentry htimely hgone =>
    have hempty : (registry (s.apply w).store id).entry = none := hgone
    cases houtcome p hentry with
    | kept hp => rw [hempty] at hp; cases hp
    | changed _ hother => exact (hother _ _ hcall).elim
    | fetched _ _ hstatus hrecord =>
      rw [htimely] at hstatus
      subst hstatus
      exact ⟨fun q hq => (by rw [hempty] at hq; cases hq), hrecord⟩
  | @expired p hentry hlate hgone =>
    have hempty : (registry (s.apply w).store id).entry = none := hgone
    cases houtcome p hentry with
    | kept hp => rw [hempty] at hp; cases hp
    | changed htimely => rw [hlate] at htimely; cases htimely
    | fetched _ _ hstatus hrecord =>
      rw [hlate] at hstatus
      subst hstatus
      exact ⟨fun q hq => (by rw [hempty] at hq; cases hq), hrecord⟩
  | @denied p q hentry hbefore hwritten hafter =>
    have hslot : (registry (s.apply w).store id).entry = some q := hwritten
    cases houtcome p hentry with
    | kept hp =>
      obtain rfl := Option.some.inj (hslot.symm.trans hp)
      exact (hbefore hafter).elim
    | changed _ _ hdenied =>
      refine ⟨fun x hx => ?_, hdenied q hslot hafter⟩
      obtain rfl := Option.some.inj (hslot.symm.trans hx)
      exact hafter
    | fetched hgone => rw [hgone] at hslot; cases hslot

theorem settled_step (henv : s.env.Reliable) (hkeyed : Keyed w.store)
    (hfresh : FreshID s w.store) {status : HistoryStatus} {limit : Time}
    (hnow : s.env.now ≤ limit) (h : Settled status limit (registry w.store id)) :
    Settled status limit (registry (s.apply w).store id) := by
  refine (Step.leads s henv w hkeyed).keeps_at (K := Settled status limit) ?_ h
  intro r slot
  refine settled_of_move hnow (hfresh.uuid_ne ?_)
  obtain ⟨record, hrecord, -⟩ := h.2
  exact .inr (by rw [hrecord]; rfl)

/-- If no call clears an expired entry before it is fetched, the history is complete. -/
theorem audited_finalWorld (steps : List Step) (hreliable : ∀ s ∈ steps, s.env.Reliable)
    (hfresh : FreshIDs steps) (hclears : NothingCleared steps) : Audited steps := by
  rintro before s later rfl id status hresolved
  -- The record is there after `s`; the induction is on the steps taken since.
  have hsettled : (∀ t ∈ later, t.env.now ≤ s.env.now + approvalHistoryTTL) →
      Settled status (s.env.now + approvalHistoryTTL)
        (registry (finalWorld (before ++ s :: later)).store id) := by
    induction later using List.reverseRecOn with
    | nil =>
      intro _
      rw [finalWorld_concat]
      exact settled_of_resolved (hreliable s (by simp)) (keyed_finalWorld before)
        hfresh.last hclears.last hresolved
    | append_singleton later t ih =>
      intro htimes
      rw [← List.cons_append, ← List.append_assoc] at hreliable hfresh hclears ⊢
      rw [finalWorld_concat]
      refine settled_step (hreliable t (by simp)) (keyed_finalWorld _) hfresh.last
        (htimes t (by simp)) ?_
      exact ih (fun s' hs' => hreliable s' (List.mem_append_left _ hs')) hfresh.of_append
        hclears.of_append fun t' ht' => htimes t' (List.mem_append_left _ ht')
  intro htimes
  obtain ⟨-, h, hrecord, hstatus, -⟩ := hsettled htimes
  exact ⟨h, hrecord, hstatus⟩

def afterRequest (s : Step) : List Step :=
  [ruleStep, requestStep sampleRequest, s]

theorem reliable_afterRequest (hs : s.env.Reliable) : ∀ s' ∈ afterRequest s, s'.env.Reliable := by
  intro s' hs'
  simp only [afterRequest, List.mem_cons, List.not_mem_nil, or_false] at hs'
  rcases hs' with rfl | rfl | rfl
  · exact fun _ _ => rfl
  · exact fun _ _ => rfl
  · exact hs

theorem freshIDs_afterRequest (hcall : ∀ bypass auth req, s.call ≠ .request bypass auth req) :
    FreshIDs (afterRequest s) := by
  have hrule : FreshIDs [ruleStep] := throughout_nil.concat nofun
  have hrequest : FreshIDs [ruleStep, requestStep sampleRequest] := by
    refine hrule.concat ?_
    rintro bypass auth req id - ⟨⟩
    exact ⟨rfl, rfl⟩
  refine hrequest.concat ?_
  intro bypass auth req id h
  exact (hcall bypass auth req h).elim

def lateStep (call : Call) : Step :=
  ⟨sampleCore, { sampleEnv with now := 2 * hour }, call⟩

theorem nothingCleared_afterRequest {req : Request} {id : String} (hcall : s.call = .fetch req id) :
    NothingCleared (afterRequest s) := by
  have hrule : NothingCleared [ruleStep] :=
    throughout_nil.concat fun _ _ _ hlate => nomatch hlate
  have hrequest : NothingCleared [ruleStep, requestStep sampleRequest] := by
    refine hrule.concat ?_
    intro id p hp
    have hnone : storedPending (finalWorld [ruleStep]).store id = none := rfl
    cases hp
  refine hrequest.concat ?_
  intro id p _ _ hclears
  rw [Clears, hcall] at hclears
  exact hclears

/-- An approve call removes the expired entry, and no record is written. -/
theorem not_audited_lateApproval :
    (∀ s ∈ afterRequest (lateStep (.approve sampleApprover "5d2b6e0c")), s.env.Reliable) ∧
      FreshIDs (afterRequest (lateStep (.approve sampleApprover "5d2b6e0c"))) ∧
      ¬ Audited (afterRequest (lateStep (.approve sampleApprover "5d2b6e0c"))) := by
  refine ⟨reliable_afterRequest fun _ _ => rfl, freshIDs_afterRequest (by simp [lateStep]), ?_⟩
  intro haudited
  have hresolved : Resolved (lateStep (.approve sampleApprover "5d2b6e0c"))
      (finalWorld [ruleStep, requestStep sampleRequest]) "5d2b6e0c" .expired :=
    .expired (p := (parkedRequest sampleRequest (sampleRule 1) "5d2b6e0c" 1).normalize)
      rfl rfl rfl
  obtain ⟨h, hrecord, -⟩ := haudited _ _ [] rfl _ _ hresolved (List.forall_mem_nil _)
  cases hrecord

theorem audited_lateFetch :
    Audited (afterRequest (lateStep (.fetch sampleRequest "5d2b6e0c"))) :=
  audited_finalWorld _ (reliable_afterRequest fun _ _ => rfl)
    (freshIDs_afterRequest (by simp [lateStep])) (nothingCleared_afterRequest rfl)

theorem decided_of_move (hfresh : ∀ bypass auth req, s.call = .request bypass auth req →
      s.env.uuid ≠ .ok id) (hdecided : p.status ≠ .pending)
    (h : ∀ q, (r id).entry = some q → q = p) (hmove : Move s store r id slot) :
    ∀ q, slot.entry = some q → q = p := by
  cases hmove with
  | park hcall huuid => exact (hfresh _ _ _ hcall huuid).elim
  | vote hcall hentry hstatus | deny hcall hentry hstatus =>
    rw [h _ hentry] at hstatus
    exact (hdecided hstatus).elim
  | retrieve | expire | clear | drop => exact removed_entry
  | purge => exact h

/-- Whatever calls follow, an entry that has been decided is not changed any more: it is removed, or
stays as it is. -/
theorem decided_entry_stays (before later : List Step) (hreliable : ∀ s ∈ later, s.env.Reliable)
    (hfresh : ∀ s ∈ later, ∀ bypass auth req, s.call = .request bypass auth req →
      s.env.uuid ≠ .ok id)
    (hp : storedPending (finalWorld before).store id = some p) (hdecided : p.status ≠ .pending)
    (q : PendingRequest) (hq : storedPending (finalWorld (before ++ later)).store id = some q) :
    q = p := by
  induction later using List.reverseRecOn generalizing q with
  | nil =>
    rw [List.append_nil, hp] at hq
    exact (Option.some.inj hq).symm
  | append_singleton later s ih =>
    rw [List.forall_mem_append, List.forall_mem_singleton] at hreliable hfresh
    rw [← List.append_assoc, finalWorld_concat] at hq
    refine (Step.leads s hreliable.2 _ (keyed_finalWorld _)).keeps_at
      (K := fun slot => ∀ q, slot.entry = some q → q = p) ?_ (ih hreliable.1 hfresh.1) q hq
    exact fun r slot => decided_of_move hfresh.2 hdecided

theorem decided_entry_stays_sampleRun : ∃ p,
    storedPending (finalWorld (sampleRun 1 [sampleApprover])).store "5d2b6e0c" = some p ∧
      ∀ q, storedPending (finalWorld (sampleRun 1 [sampleApprover] ++ [approveStep])).store
        "5d2b6e0c" = some q → q = p := by
  have hdecided : (storedPending (finalWorld (sampleRun 1 [sampleApprover])).store "5d2b6e0c").map
      PendingRequest.status = some .approved := by decide
  obtain ⟨p, hp, hstatus⟩ := Option.map_eq_some_iff.mp hdecided
  refine ⟨p, hp, decided_entry_stays _ _ ?_ ?_ hp (by simp [hstatus])⟩
  · exact List.forall_mem_singleton.mpr fun _ _ => rfl
  · exact List.forall_mem_singleton.mpr fun _ _ _ hcall => by cases hcall

end VaultProofs.AuditTrail
