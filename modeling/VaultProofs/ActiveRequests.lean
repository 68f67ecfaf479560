import VaultProofs.HandlerMoves

/-!
The guard against a second request: along a run whose paths are text at most one entry is live for
each requester and path.
-/

namespace VaultProofs.ActiveRequests

open GoStrings JsonValues ApprovalEntries VaultEffects ApprovalInterceptor ApprovalRuns
open EntryRegistry HandlerMoves

def Active (now : Time) (p : PendingRequest) : Prop :=
  (p.status = .pending ∧ now < p.expiresAt) ∨
    (p.status = .approved ∧ p.credentialData.isSome = true ∧
      now - p.approvedAt < approvalCredentialTTL)

instance (now : Time) (p : PendingRequest) : Decidable (Active now p) :=
  inferInstanceAs (Decidable (_ ∨ _))

theorem Active.live {now : Time} {p : PendingRequest} (h : Active now p) : Live p := by
  rcases h with ⟨hstatus, -⟩ | ⟨hstatus, -⟩
  · exact .inl hstatus
  · exact .inr hstatus

def Compete (p q : PendingRequest) : Prop :=
  p.requesterEntityID ≠ "" ∧ q.requesterEntityID = p.requesterEntityID ∧
    q.originalPath = p.originalPath

def OneActive (now : Time) (store : Store) : Prop :=
  ∀ id id' p q, storedPending store id = some p → storedPending store id' = some q →
    Compete p q → Active now p → Active now q → id = id'

/-- Every path requested by an entity is well-formed UTF-8. -/
def TextPaths (steps : List Step) : Prop :=
  ∀ s ∈ steps, ∀ bypass auth req, s.call = .request bypass auth req →
    req.entityID ≠ "" → ValidUTF8 req.path

variable {r : Registry}

def Normal (r : Registry) : Prop :=
  ∀ id p, (r id).entry = some p → p.normalize = p

def OneLive (r : Registry) : Prop :=
  ∀ id id' p q, (r id).entry = some p → (r id').entry = some q → Compete p q →
    Live p → Live q → id = id'

theorem normal_empty : Normal fun _ => {} := by
  intro id p hp
  cases hp

theorem oneLive_empty : OneLive fun _ => {} := by
  intro id id' p q hp
  cases hp

theorem Compete.symm {p q : PendingRequest} (h : Compete p q) : Compete q p :=
  ⟨h.2.1 ▸ h.1, h.2.1.symm, h.2.2.symm⟩

/-- The slot of one ID changes: the new entry must be told apart from the others. -/
theorem OneLive.update (h : OneLive r) {id : String} {slot : Slot}
    (hslot : ∀ p, slot.entry = some p → Live p → ∀ id' q, id' ≠ id → (r id').entry = some q →
      Compete p q → ¬ Live q) : OneLive (Function.update r id slot) := by
  intro i j p q hp hq hcompete hlive hlive'
  by_cases hi : i = id
  · by_cases hj : j = id
    · rw [hi, hj]
    · subst hi
      rw [Function.update_self] at hp
      rw [Function.update_of_ne hj] at hq
      exact (hslot p hp hlive j q hj hq hcompete hlive').elim
  rw [Function.update_of_ne hi] at hp
  by_cases hj : j = id
  · subst hj
    rw [Function.update_self] at hq
    exact (hslot q hq hlive' i p hi hp hcompete.symm hlive).elim
  · rw [Function.update_of_ne hj] at hq
    exact h i j p q hp hq hcompete hlive hlive'

theorem OneLive.rewrite (h : OneLive r) {id : String} {p : PendingRequest}
    (hp : (r id).entry = some p) (hlive : Live p) {slot : Slot}
    (hslot : ∀ q, slot.entry = some q → q.requesterEntityID = p.requesterEntityID ∧
      q.originalPath = p.originalPath) : OneLive (Function.update r id slot) := by
  apply h.update
  rintro q hq - id' q' hid hq' ⟨hne, hrequester, hpath⟩ hlive'
  obtain ⟨hrequester', hpath'⟩ := hslot q hq
  have hcompete : Compete p q' :=
    ⟨hrequester' ▸ hne, hrequester.trans hrequester', hpath.trans hpath'⟩
  exact hid (h id id' p q' hp hq' hcompete hlive hlive').symm

theorem Normal.update (h : Normal r) {id : String} {slot : Slot}
    (hslot : ∀ p, slot.entry = some p → p.normalize = p) : Normal (Function.update r id slot) := by
  intro i p hp
  by_cases hi : i = id
  · subst hi
    rw [Function.update_self] at hp
    exact hslot p hp
  · rw [Function.update_of_ne hi] at hp
    exact h i p hp

variable {s : Step} {store : Store} {id : String} {slot : Slot}

theorem normal_of_move (h : Normal r) (hmove : Move s store r id slot) :
    Normal (Function.update r id slot) := by
  apply h.update
  intro p hp
  cases hmove with
  | park | vote | deny => cases hp; exact PendingRequest.normalize_normalize _
  | retrieve | expire | clear | drop => cases hp
  | purge => exact h id p hp

theorem oneLive_of_move (hpath : ∀ bypass auth req, s.call = .request bypass auth req →
      req.entityID ≠ "" → ValidUTF8 req.path) (hnormal : Normal r) (h : OneLive r)
    (hmove : Move s store r id slot) : OneLive (Function.update r id slot) := by
  cases hmove with
  | @park bypass auth req rule hcall huuid halone =>
    apply h.update
    rintro p hp - id' q hid hq ⟨hne, hrequester, hsame⟩
    cases hp
    refine halone hne id' q hq ⟨hrequester, ?_⟩
    exact hsame.trans (hpath bypass auth req hcall hne)
  | @vote req p q hcall hentry hstatus hlive hwritten =>
    refine h.rewrite hentry (.inl hstatus) ?_
    intro q' hq'
    cases hq'
    have hparked : q.normalize.parked = p.parked := by
      rw [PendingRequest.parked_normalize, hwritten.parked_eq, ← PendingRequest.parked_normalize,
        hnormal id p hentry]
    have hrequester := congrArg PendingRequest.requesterEntityID hparked
    have hsame := congrArg PendingRequest.originalPath hparked
    exact ⟨hrequester, hsame⟩
  | deny hcall hentry hstatus =>
    apply h.update
    intro p hp hlive
    cases hp
    rcases hlive with hlive | hlive <;> cases hlive
  | retrieve | expire | clear | drop => exact h.update fun p hp => by cases hp
  | purge =>
    apply h.update
    intro p hp hlive id' q hid hq hcompete hlive'
    exact hid (h id id' p q hp hq hcompete hlive hlive').symm

/-- With reliable storage and paths that are text there is never more than one active entry for each
requester and path. -/
theorem oneActive_finalWorld (steps : List Step) (hreliable : ∀ s ∈ steps, s.env.Reliable)
    (hpaths : TextPaths steps) (now : Time) : OneActive now (finalWorld steps).store := by
  have hkept : Normal (registry (finalWorld steps).store) ∧
      OneLive (registry (finalWorld steps).store) := by
    refine registry_finalWorld (K := fun r => Normal r ∧ OneLive r) hreliable
      ⟨normal_empty, oneLive_empty⟩ ?_
    intro s hs store r id slot ⟨hnormal, hone⟩ hmove
    exact ⟨normal_of_move hnormal hmove, oneLive_of_move (hpaths s hs) hnormal hone hmove⟩
  intro id id' p q hp hq hcompete hactive hactive'
  exact hkept.2 id id' p q hp hq hcompete hactive.live hactive'.live

def repeatedRun (path : GoString) : List Step :=
  [ruleStep, requestStep { sampleRequest with path := path },
   { requestStep { sampleRequest with path := path } with
     env := { sampleEnv with uuid := .ok "77f01c9e" } }]

theorem mem_repeatedRun {path : GoString} {s : Step} (hs : s ∈ repeatedRun path) :
    s.env.Reliable ∧ ∀ bypass auth req, s.call = .request bypass auth req → req.path = path := by
  simp only [repeatedRun, List.mem_cons, List.not_mem_nil, or_false] at hs
  rcases hs with rfl | rfl | rfl
  · exact ⟨fun _ _ => rfl, nofun⟩
  · exact ⟨fun _ _ => rfl, by rintro bypass auth req ⟨⟩; rfl⟩
  · exact ⟨fun _ _ => rfl, by rintro bypass auth req ⟨⟩; rfl⟩

/-- A byte that is not UTF-8 is stored as a replacement character, so the guard does not recognise
the second request. -/
theorem not_oneActive_repeatedRun :
    (∀ s ∈ repeatedRun (ofString "database/creds/" ++ [0xff]), s.env.Reliable) ∧
      ¬ OneActive 2 (finalWorld (repeatedRun (ofString "database/creds/" ++ [0xff]))).store := by
  refine ⟨fun s hs => (mem_repeatedRun hs).1, fun hone => ?_⟩
  have hactive : ∀ id ∈ ["5d2b6e0c", "77f01c9e"],
      ∃ p ∈ storedPending
          (finalWorld (repeatedRun (ofString "database/creds/" ++ [0xff]))).store id,
        p.requesterEntityID = "carol" ∧
        p.originalPath = ofString "database/creds/\uFFFD" ∧ Active 2 p := by decide
  obtain ⟨p, hp, hcarol, hpath, hlive⟩ := hactive "5d2b6e0c" (by decide)
  obtain ⟨q, hq, hcarol', hpath', hlive'⟩ := hactive "77f01c9e" (by decide)
  have hcompete : Compete p q := by
    simp [Compete, hcarol, hcarol', hpath, hpath']
  exact absurd (hone _ _ p q hp hq hcompete hlive hlive') (by decide)

theorem oneActive_repeatedRun :
    ((finalWorld (repeatedRun (ofString "database/creds/app"))).store.lookup
      (pendingKey "5d2b6e0c")).isSome = true ∧
    OneActive 2 (finalWorld (repeatedRun (ofString "database/creds/app"))).store := by
  refine ⟨by decide, oneActive_finalWorld _ (fun s hs => (mem_repeatedRun hs).1) ?_ 2⟩
  intro s hs bypass auth req hcall _
  rw [(mem_repeatedRun hs).2 bypass auth req hcall]
  exact validUTF8_ofString _

end VaultProofs.ActiveRequests
