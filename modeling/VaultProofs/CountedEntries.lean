import VaultProofs.HealthyRevocation
import VaultProofs.LockedBudgets
import VaultProofs.ProgramProtocols
import VaultProofs.TokenTidy

/-!
How the token store treats the entry of one token with a limited number of uses.
-/

namespace VaultProofs.CountedEntries

open GoStrings EffectPrograms ProgramOutcomes ProgramProtocols LockedBudgets TokenEffects
open TokenStore
open HealthyRevocation (persistNeeded_upgraded upgraded_saltedID)

def usesLeft : Option TokenEntry → Nat
  | none => 0
  | some entry => entry.numUses.toNat

def Counted (cell : Option TokenEntry) : Prop :=
  ∀ entry ∈ cell, persistNeeded entry = false ∧ entry.numUses ≠ 0

/-- How an operation shows on the entry of the token and on its lock. -/
def Shows (token : SaltedID) : (op : TokenOp) → op.Answer → Event (Option TokenEntry) → Prop
  | .getEntry key, .ok found, event =>
    if key = token then event = .read found else event = .quiet
  | .getEntry key, .error _, event =>
    if key = token then event = .forget .read else event = .quiet
  | .putEntry entry, .ok _, event =>
    if entry.saltedID = token then
      event = .restore (some entry) ∨ event = .clear (some entry) ∨ event = .spend (some entry)
    else event = .quiet
  | .putEntry entry, .error _, event =>
    if entry.saltedID = token then event = .forget .write else event = .quiet
  | .deleteEntry key, .ok _, event =>
    if key = token then event = .clear none else event = .quiet
  | .deleteEntry key, .error _, event =>
    if key = token then event = .forget .write else event = .quiet
  | .lock id, _, event => if (⟨id⟩ : SaltedID) = token then event = .lock else event = .quiet
  | .unlock id, _, event => if (⟨id⟩ : SaltedID) = token then event = .unlock else event = .quiet
  | _, _, event => event = .quiet

/-- The answers that the store gives while the entry of the token is counted. -/
def Answers (token : SaltedID) : (op : TokenOp) → op.Answer → Prop
  | .getEntry key, .ok found =>
    ∀ entry ∈ found, entry.saltedID = key ∧ (key = token → Counted (some entry))
  | .saltID id, .ok key => key = ⟨id⟩
  | .lock _, answer => answer = .ok ()
  | .unlock _, answer => answer = .ok ()
  | _, _ => True

/-- The protocol of a call; `restores` says whether it may write an entry back. -/
def countedProtocol (token : SaltedID) (restores : Prop) :
    Protocol tokens (Phase (Option TokenEntry)) where
  admits := Answers token
  step q op answer q' := ∃ event, Shows token op answer event ∧
    Move usesLeft Counted q event q' ∧ ∀ value, event = .restore value → restores

/-- What the lock and the count of a call are between its operations. -/
def Frame (locked spent : Bool) (q : Phase (Option TokenEntry)) : Prop :=
  q.locked = locked ∧ q.spent = spent

/-- The program keeps to the protocol, with the lock and the count afterwards as before. -/
abbrev Careful (token : SaltedID) (restores : Prop) (locked spent : Bool) {α : Type}
    (x : TokenM α) : Prop :=
  Abides (countedProtocol token restores) (Frame locked spent) (fun _ => True) x

variable {token : SaltedID} {restores : Prop} {K : Phase (Option TokenEntry) → Prop} {l s : Bool}

theorem abides_quiet {op : TokenOp}
    (hop : ∀ answer, Shows token op answer .quiet) :
    Abides (countedProtocol token restores) K (fun _ => True) (perform op) := by
  intro q hq answer _
  refine ⟨q, ⟨.quiet, hop answer, .quiet q, fun _ h => by cases h⟩, ?_⟩
  cases answer with
  | error e => exact hq
  | ok value => exact ⟨hq, trivial⟩

theorem quiet_then {α : Type} {op : TokenOp} {f : op.Result → TokenM α} {P : α → Prop}
    (hop : ∀ answer, Shows token op answer .quiet)
    (hf : ∀ value, Abides (countedProtocol token restores) K P (f value)) :
    Abides (countedProtocol token restores) K P (perform op >>= f) :=
  (abides_quiet hop).then hf

theorem abides_saltID (id : GoString) :
    Abides (countedProtocol token restores) K (fun key => key = ⟨id⟩) (saltID id) := by
  intro q hq answer hanswer
  refine ⟨q, ⟨.quiet, rfl, .quiet q, fun _ h => by cases h⟩, ?_⟩
  cases answer with
  | error e => exact hq
  | ok value => exact ⟨hq, hanswer⟩

variable {entry : TokenEntry}

theorem abides_putEntry
    (h : entry.saltedID = token → Counted (some entry) ∧ usesLeft (some entry) = 0) :
    Careful token restores l s (perform (.putEntry entry)) := by
  by_cases htoken : entry.saltedID = token
  · obtain ⟨hcounted, huses⟩ := h htoken
    intro q hq answer _
    cases answer with
    | error e =>
      exact ⟨_, ⟨.forget .write, by simp [Shows, htoken], .forget q .write, by simp⟩, hq⟩
    | ok value =>
      exact ⟨_, ⟨.clear (some entry), by simp [Shows, htoken],
        .clear q _ hcounted huses, by simp⟩, hq, trivial⟩
  refine abides_quiet fun answer => ?_
  cases answer with
  | error e | ok value => simp [Shows, htoken]

theorem abides_deleteEntry (key : SaltedID) :
    Careful token restores l s (perform (.deleteEntry key)) := by
  by_cases htoken : key = token
  · intro q hq answer _
    cases answer with
    | error e =>
      exact ⟨_, ⟨.forget .write, by simp [Shows, htoken], .forget q .write, by simp⟩, hq⟩
    | ok value =>
      exact ⟨_, ⟨.clear none, by simp [Shows, htoken],
        .clear q none (by simp [Counted]) rfl, by simp⟩, hq, trivial⟩
  refine abides_quiet fun answer => ?_
  cases answer with
  | error e | ok value => simp [Shows, htoken]

theorem abides_store
    (h : entry.saltedID = token → Counted (some entry) ∧ usesLeft (some entry) = 0) :
    Careful token restores l s (store entry) := by
  refine quiet_then (by intro; rfl) fun _ => ?_
  refine quiet_then (by intro; rfl) fun saltedID => ?_
  have hindex : Careful token restores l s
      (writeParentIndex (fun _ => return none) entry saltedID false) := by
    exact abides_pure
  exact hindex.then fun _ => (abides_putEntry h).mapError _

theorem abides_persistUpgrade {stored : TokenEntry}
    (h : stored.saltedID = token → persistNeeded stored = false) :
    Careful token restores l s (persistUpgrade stored) := by
  rw [persistUpgrade]
  split
  · rename_i hneeded
    refine (abides_store fun htoken => ?_).mapError _
    rw [h htoken] at hneeded
    cases hneeded
  · exact abides_pure

theorem obeys_lock {id : GoString} (hid : (⟨id⟩ : SaltedID) = token)
    {q : Phase (Option TokenEntry)} (hq : q.locked = false) :
    Obeys (countedProtocol token restores) (perform (.lock id)) q
      (fun _ q' => q' = { q with locked := true, held := none }) (fun _ => False) := by
  rintro answer rfl
  exact ⟨_, ⟨.lock, by simp [Shows, hid], .lock q hq, by simp⟩, rfl⟩

theorem obeys_unlock {id : GoString} (hid : (⟨id⟩ : SaltedID) = token)
    {q : Phase (Option TokenEntry)} (hq : q.locked = true) :
    Obeys (countedProtocol token restores) (perform (.unlock id)) q
      (fun _ q' => q' = { q with locked := false, held := none }) (fun _ => False) := by
  rintro answer rfl
  exact ⟨_, ⟨.unlock, by simp [Shows, hid], .unlock q hq, by simp⟩, rfl⟩

theorem obeys_store (htoken : entry.saltedID = token) {event : Event (Option TokenEntry)}
    {q q' : Phase (Option TokenEntry)}
    (hevent : ∀ value, Shows token (.putEntry entry) (.ok value) event)
    (hmove : Move usesLeft Counted q event q')
    (hrestores : ∀ value, event = .restore value → restores) :
    Obeys (countedProtocol token restores) (store entry) q (fun _ q₁ => q₁ = q')
      (fun q₁ => q₁.locked = q.locked ∧ q₁.spent = q.spent) := by
  have hquiet : ∀ {op : TokenOp}, (∀ answer, Shows token op answer .quiet) →
      Obeys (countedProtocol token restores) (perform op) q (fun _ q₁ => q₁ = q)
        (fun q₁ => q₁.locked = q.locked ∧ q₁.spent = q.spent) := by
    intro op hop
    refine ((abides_quiet (K := fun q₁ => q₁ = q) hop) q rfl).mono (fun _ _ h => h.1) ?_
    rintro q₁ rfl
    exact ⟨rfl, rfl⟩
  refine Obeys.bind (hquiet fun _ => by rfl) ?_
  intro _ q₁ hq₁
  rw [hq₁]
  refine Obeys.bind (hquiet fun _ => by rfl) ?_
  intro saltedID q₂ hq₂
  rw [hq₂, obeys_bind, writeParentIndex, if_pos (.inl rfl), obeys_pure]
  refine Obeys.mapError ?_ _
  intro answer _
  cases answer with
  | error e =>
    exact ⟨_, ⟨.forget .write, by simp [Shows, htoken], .forget q .write, by simp⟩, rfl, rfl⟩
  | ok value => exact ⟨q', ⟨event, hevent value, hmove, hrestores⟩, rfl⟩

theorem upgraded_numUses {stored : TokenEntry} (h : persistNeeded stored = false) :
    (upgraded stored).numUses = stored.numUses := by
  have hdeprecated : stored.numUsesDeprecated = 0 := by
    simp only [persistNeeded, decide_eq_false_iff_not, not_or, not_not] at h
    exact h.2.2.2
  simp [upgraded, hdeprecated]

/-- What a call knows of an entry that a lookup has returned. -/
structure Looked (token key : SaltedID) (locked tainted : Bool) (entry : TokenEntry)
    (q : Phase (Option TokenEntry)) : Prop where
  saltedID : entry.saltedID = key
  persisted : persistNeeded entry = false
  known : key = token → ∃ old, Counted (some old) ∧ entry.numUses = old.numUses ∧
    q.copy = some (some old) ∧ (locked = true → q.held = some (some old)) ∧
    (tainted = false → 0 ≤ old.numUses)

section functions

variable {revokeTree : GoString → TokenM Unit}
  (htree : ∀ clientToken, Careful token restores l s (revokeTree clientToken))

include htree

theorem abides_revokeCommon (leaseID : LeaseID) (skipToken : Bool) :
    Careful token restores l s (revokeCommon revokeTree leaseID skipToken) := by
  refine quiet_then (by intro; rfl) ?_
  rintro (_ | lease)
  · exact abides_pure
  cases skipToken with
  | true => exact abides_quiet fun _ => rfl
  | false =>
    exact ((htree lease.clientToken).mapError _).then fun _ => abides_quiet fun _ => rfl

theorem abides_revokeWithoutLease (entry : TokenEntry) :
    Careful token restores l s (revokeWithoutLease revokeTree entry) := by
  refine quiet_then (by intro; rfl) fun _ => ?_
  have hlease : Careful token restores l s (createOrFetchRevocationLeaseByToken entry) := by
    refine quiet_then (by intro; rfl) fun _ => ?_
    refine quiet_then (by intro; rfl) fun _ => ?_
    refine quiet_then (by intro; rfl) ?_
    rintro (_ | lease)
    · refine abides_ite (fun _ => abides_throw _) fun _ => ?_
      refine quiet_then (by intro; rfl) fun _ => ?_
      refine quiet_then (by intro; rfl) fun _ => ?_
      exact abides_pure
    · exact abides_pure
  exact hlease.then fun leaseID => abides_revokeCommon htree leaseID false

variable {q : Phase (Option TokenEntry)}

theorem obeys_checkLease (entry : TokenEntry) (tainted : Bool) (hq : Frame l s q) :
    Obeys (countedProtocol token restores) (checkLease revokeTree entry tainted) q
      (fun found q' => Frame l s q' ∧ ∀ te ∈ found, te = entry ∧ q' = q) (Frame l s) := by
  have hfetch : Abides (countedProtocol token restores) (fun q' => q' = q) (fun _ => True)
      (fetchLeaseTimesByToken entry) := by
    refine quiet_then (by intro; rfl) fun _ => ?_
    refine quiet_then (by intro; rfl) fun _ => ?_
    exact abides_quiet fun _ => rfl
  have hframe : ∀ q', q' = q → Frame l s q' := fun q' h => h ▸ hq
  refine (((hfetch q rfl).mono (fun _ _ h => h) hframe).mapError _).bind ?_
  rintro (_ | lease) q' ⟨rfl, -⟩
  · refine (abides_revokeWithoutLease htree entry q' hq).bind ?_
    rintro _ q'' ⟨hq'', -⟩
    exact ⟨hq'', by simp⟩
  have htime : Abides (countedProtocol token restores) (fun q'' => q'' = q') (fun _ => True)
      (perform .timeNow) := abides_quiet fun _ => rfl
  refine ((htime q' rfl).mono (fun _ _ h => h) hframe).bind ?_
  rintro now q'' ⟨rfl, -⟩
  refine ⟨hq, ?_⟩
  split
  · simp
  · simp

theorem obeys_lookupStored {stored : TokenEntry} (tainted : Bool)
    (hstored : stored.saltedID = token → persistNeeded stored = false) (hq : Frame l s q) :
    Obeys (countedProtocol token restores) (lookupStored revokeTree stored tainted) q
      (fun found q' => Frame l s q' ∧
        ∀ te ∈ found, te = upgraded stored ∧ (stored.saltedID = token → q' = q))
      (Frame l s) := by
  have hself : ∀ te ∈ some (upgraded stored),
      te = upgraded stored ∧ (stored.saltedID = token → q = q) := by simp
  -- Persisting an upgrade does not touch the entry of the token.
  have hpersist : ∀ q', Frame l s q' → Obeys (countedProtocol token restores)
      (persistUpgrade stored) q'
      (fun _ q'' => Frame l s q'' ∧ (stored.saltedID = token → q'' = q')) (Frame l s) := by
    intro q' hq'
    by_cases htoken : stored.saltedID = token
    · rw [persistUpgrade, hstored htoken]
      exact ⟨hq', fun _ => rfl⟩
    · refine (abides_persistUpgrade hstored q' hq').imp ?_
      exact fun _ q'' h => ⟨h.1, fun h' => absurd h' htoken⟩
  rw [lookupStored]
  split
  · refine (hpersist q hq).bind ?_
    rintro _ q' ⟨hq', hsame⟩
    refine ⟨hq', ?_⟩
    intro te hte
    cases hte
    exact ⟨rfl, hsame⟩
  split
  · exact ⟨hq, hself⟩
  split
  · exact ⟨hq, hself⟩
  refine (obeys_checkLease htree (upgraded stored) tainted hq).bind ?_
  rintro found q' ⟨hq', hfound⟩
  refine (hpersist q' hq').bind ?_
  rintro _ q'' ⟨hq'', hsame⟩
  refine ⟨hq'', ?_⟩
  intro te hte
  obtain ⟨rfl, rfl⟩ := hfound te hte
  exact ⟨rfl, hsame⟩

theorem obeys_lookupSalted (key : SaltedID) (tainted : Bool) (hq : Frame l s q) :
    Obeys (countedProtocol token restores) (lookupSalted revokeTree key tainted) q
      (fun found q' => Frame l s q' ∧ ∀ te ∈ found, Looked token key l tainted te q')
      (Frame l s) := by
  -- The phase after the entry is read.
  have hread : Obeys (countedProtocol token restores) (perform (.getEntry key)) q
      (fun found q' => Frame l s q' ∧ ∀ stored ∈ found, stored.saltedID = key ∧
        (key = token → Counted (some stored) ∧ q'.copy = some (some stored) ∧
          (l = true → q'.held = some (some stored))))
      (Frame l s) := by
    intro answer hanswer
    by_cases htoken : key = token
    · cases answer with
      | error e =>
        exact ⟨_, ⟨.forget .read, by simp [Shows, htoken], .forget q .read, by simp⟩, hq⟩
      | ok found =>
        refine ⟨_, ⟨.read found, by simp [Shows, htoken], .read q found, by simp⟩, hq, ?_⟩
        intro stored hstored
        obtain rfl : found = some stored := hstored
        refine ⟨(hanswer stored rfl).1, fun _ => ⟨(hanswer stored rfl).2 htoken, rfl, ?_⟩⟩
        intro hlocked
        simp [hq.1, hlocked]
    refine ⟨q, ⟨.quiet, ?_, .quiet q, by simp⟩, ?_⟩
    · cases answer with
      | error e | ok found => simp [Shows, htoken]
    cases answer with
    | error e => exact hq
    | ok found =>
      exact ⟨hq, fun stored hstored => ⟨(hanswer stored hstored).1,
        fun h => absurd h htoken⟩⟩
  refine (hread.mapError _).bind ?_
  rintro (_ | stored) q₁ ⟨hq₁, hfound⟩
  · exact ⟨hq₁, by simp⟩
  obtain ⟨rfl, hknown⟩ := hfound stored rfl
  change Obeys _ (ite _ _ _) _ _ _
  split
  · exact ⟨hq₁, by simp⟩
  rename_i hvisible
  refine (obeys_lookupStored htree tainted
    (fun htoken => ((hknown htoken).1 stored rfl).1) hq₁).imp ?_
  rintro found q₂ ⟨hq₂, hsame⟩
  refine ⟨hq₂, ?_⟩
  intro te hte
  obtain ⟨rfl, hphase⟩ := hsame te hte
  refine ⟨rfl, persistNeeded_upgraded stored, fun htoken => ?_⟩
  obtain ⟨hcounted, hcopy, hheld⟩ := hknown htoken
  rw [hphase htoken]
  refine ⟨stored, hcounted, upgraded_numUses (hcounted stored rfl).1, hcopy, hheld, ?_⟩
  intro htainted
  by_contra hnegative
  exact hvisible ⟨by omega, htainted⟩

theorem abides_lookupSalted (key : SaltedID) (tainted : Bool) :
    Abides (countedProtocol token restores) (Frame l s)
      (fun found => ∀ te ∈ found, te.saltedID = key ∧ persistNeeded te = false)
      (lookupSalted revokeTree key tainted) :=
  fun _ hq => (obeys_lookupSalted htree key tainted hq).imp
    (fun _ _ h => ⟨h.1, fun te hte => ⟨(h.2 te hte).saltedID, (h.2 te hte).persisted⟩⟩)

theorem abides_revokeByToken (id namespaceID path : GoString) :
    Careful token restores l s (revokeByToken revokeTree id namespaceID path) := by
  refine quiet_then (by intro; rfl) fun _ => ?_
  refine quiet_then (by intro; rfl) fun _ => ?_
  refine Abides.then (Abides.mapError (abides_quiet (by intro; rfl)) _) fun _ => ?_
  refine abides_ite (fun _ => abides_pure) fun _ => ?_
  exact quiet_then (by intro; rfl) fun _ => abides_revokeCommon htree _ true

theorem abides_findRevoked (key : SaltedID) :
    Careful token restores l s (findRevoked revokeTree key) := by
  refine (abides_lookupSalted htree key true).bind ?_
  rintro (_ | found) hfound
  · exact abides_pure
  have hmark : Careful token restores l s (markRevoked found) := by
    refine abides_ite (fun _ => abides_pure) fun _ => ?_
    have hstored : (marked found).saltedID = token →
        Counted (some (marked found)) ∧ usesLeft (some (marked found)) = 0 := by
      refine fun _ => ⟨?_, rfl⟩
      intro entry hentry
      cases hentry
      exact ⟨(hfound found rfl).2, show tokenRevocationPending ≠ 0 by decide⟩
    refine Abides.then (abides_store hstored).attempt ?_
    rintro (e | _)
    · exact quiet_then (by intro; rfl) fun _ => abides_throw e
    · exact abides_pure
  refine hmark.then fun entry => quiet_then (by intro; rfl) fun _ => ?_
  exact abides_pure

omit htree in
/-- Writing the entry of a child back, orphaned. The lock is taken only now. -/
theorem obeys_orphanStore {β : Type} (hrestores : restores) {key : SaltedID} {entry : TokenEntry}
    (hq : Frame false s q) (hlooked : Looked token key false true entry q)
    {f : Except VaultEffects.GoError Unit → TokenM β} {R : β → Prop}
    (hf : ∀ result, Abides (countedProtocol token restores) (Frame false s) R (f result)) :
    Obeys (countedProtocol token restores) (do
        perform (.lock entry.id)
        let result ← capture (store (orphaned entry))
        perform (.unlock entry.id)
        f result) q
      (fun value q' => Frame false s q' ∧ R value) (Frame false s) := by
  by_cases htoken : key = token
  · obtain ⟨old, hcounted, huses, hcopy, -, -⟩ := hlooked.known htoken
    have hid : (⟨entry.id⟩ : SaltedID) = token := hlooked.saltedID.trans htoken
    have hstored : Counted (some (orphaned entry)) := by
      intro stored hentry
      cases hentry
      exact ⟨hlooked.persisted, fun h => (hcounted old rfl).2 (huses.symm.trans h)⟩
    have hbudget : usesLeft (some (orphaned entry)) ≤ usesLeft (some old) := by
      simp [usesLeft, orphaned, huses]
    refine ((obeys_lock hid hq.1).mono (fun _ _ h => h) fun _ h => h.elim).bind ?_
    rintro _ q₁ rfl
    have hsalted : (orphaned entry).saltedID = token := hid
    have hstore := obeys_store hsalted (fun _ => by simp [Shows, hsalted])
      (.restore { q with locked := true, held := none } _ (some old) hcopy hstored hbudget)
      fun _ _ => hrestores
    refine hstore.capture.bind ?_
    intro result q₂ hq₂
    have hframe : Frame true s q₂ := by
      cases result with
      | ok value =>
        obtain rfl : q₂ = _ := hq₂
        exact ⟨rfl, hq.2⟩
      | error e => exact ⟨hq₂.1, hq₂.2.trans hq.2⟩
    refine ((obeys_unlock hid hframe.1).mono (fun _ _ h => h) fun _ h => h.elim).bind ?_
    rintro _ q₃ rfl
    exact hf result _ ⟨rfl, hframe.2⟩
  have hid : (⟨entry.id⟩ : SaltedID) ≠ token := fun h => htoken (hlooked.saltedID.symm.trans h)
  have hprogram : Abides (countedProtocol token restores) (Frame false s) R (do
      perform (.lock entry.id)
      let result ← capture (store (orphaned entry))
      perform (.unlock entry.id)
      f result) := by
    refine Abides.then (abides_quiet fun _ => by simp [Shows, hid]) fun _ => ?_
    have hstored : (orphaned entry).saltedID = token →
        Counted (some (orphaned entry)) ∧ usesLeft (some (orphaned entry)) = 0 :=
      fun h => absurd h hid
    refine Abides.then (abides_store hstored).attempt fun result => ?_
    exact Abides.then (abides_quiet fun _ => by simp [Shows, hid]) fun _ => hf result
  exact hprogram q hq

omit htree in
theorem abides_orphanChildren
    (htree : ∀ clientToken, Careful token restores false s (revokeTree clientToken))
    (hrestores : restores) (children : List SaltedID) :
    Careful token restores false s (orphanChildren revokeTree children) := by
  have hchild : ∀ child, Careful token restores false s (orphanChild revokeTree child) := by
    intro child q hq
    refine ((obeys_lookupSalted htree child true hq).mapError _).bind ?_
    rintro (_ | entry) q₁ ⟨hq₁, hfound⟩
    · exact (Abides.mapError (abides_quiet (by intro; rfl)) _) q₁ hq₁
    · refine obeys_orphanStore hrestores hq₁ (hfound entry rfl) fun result => ?_
      refine Abides.then ((abides_resume fun _ _ => trivial).mapError _) fun _ => ?_
      exact Abides.mapError (abides_quiet (by intro; rfl)) _
  induction children with
  | nil => exact abides_pure
  | cons child rest ih => exact (hchild child).then fun _ => ih

/-- What `revokeInternal` does between the lookup and the removal of the entry; only a call that may
write entries back orphans children. -/
theorem abides_removeReferences (key : SaltedID) (entry : TokenEntry) (skipOrphan : Bool)
    (horphan : skipOrphan = false → restores ∧ l = false) :
    Careful token restores l s (removeReferences revokeTree key entry skipOrphan) := by
  have hcubbyhole : Careful token restores l s (destroyCubbyhole entry) := by
    refine abides_ite (fun _ => ?_) fun _ => ?_
    · exact quiet_then (by intro; rfl) fun _ => abides_quiet fun _ => rfl
    · exact abides_ite (fun _ => abides_throw _) fun _ => abides_quiet fun _ => rfl
  have hparent : Careful token restores l s (clearParentIndex key entry) := by
    refine abides_ite (fun _ => abides_pure) fun _ => ?_
    refine quiet_then (by intro; rfl) fun _ => ?_
    exact Abides.mapError (abides_quiet (by intro; rfl)) _
  have haccessor : Careful token restores l s (clearAccessor entry) := by
    refine abides_ite (fun _ => abides_pure) fun _ => ?_
    refine quiet_then (by intro; rfl) fun _ => ?_
    exact Abides.mapError (abides_quiet (by intro; rfl)) _
  refine hcubbyhole.then fun _ => ?_
  refine (abides_revokeByToken htree entry.id entry.namespaceID entry.path).then fun _ => ?_
  refine hparent.then fun _ => haccessor.then fun _ => ?_
  cases skipOrphan with
  | true => exact abides_pure
  | false =>
    obtain ⟨hrestores, rfl⟩ := horphan rfl
    refine Abides.then (Abides.mapError (abides_quiet (by intro; rfl)) _) fun children => ?_
    exact abides_orphanChildren htree hrestores children

theorem abides_revokeInternal (key : SaltedID) (skipOrphan : Bool)
    (horphan : skipOrphan = false → restores ∧ l = false) :
    Careful token restores l s (revokeInternal revokeTree key skipOrphan) := by
  have hflagged : Careful token restores l s (revokeFlagged revokeTree key skipOrphan) := by
    refine (abides_findRevoked htree key).then ?_
    rintro (_ | entry)
    · exact abides_pure
    have hremove := abides_removeReferences htree key entry skipOrphan horphan
    refine Abides.then hremove.attempt fun ret => ?_
    have hdelete : Careful token restores l s (do
        resume ret
        wrapErr "failed to delete entry" (perform (.deleteEntry key))) :=
      Abides.then (abides_resume fun _ _ => trivial) fun _ =>
        (abides_deleteEntry key).mapError _
    refine Abides.then hdelete.attempt ?_
    rintro (e | _)
    · exact quiet_then (by intro; rfl) fun _ => abides_throw e
    · exact abides_quiet fun _ => rfl
  refine quiet_then (by intro; rfl) ?_
  rintro (_ | _ | _)
  · exact hflagged
  · exact hflagged
  · exact abides_pure

theorem abides_revokeTreeInternal (fuel : Nat) (key : SaltedID) :
    Careful token restores l s (revokeTreeInternal revokeTree fuel key) := by
  have hunseen : ∀ key seenIDs children,
      Careful token restores l s (unseenChildren key seenIDs children) := by
    intro key seenIDs children
    induction children with
    | nil => exact abides_pure
    | cons child rest ih =>
      refine abides_ite (fun _ => ?_) fun _ => ih.then fun _ => abides_pure
      exact Abides.then (Abides.mapError (abides_quiet (by intro; rfl)) _) fun _ => ih
  have hloop : ∀ fuel dfs seenIDs,
      Careful token restores l s (revokeTreeLoop revokeTree fuel dfs seenIDs) := by
    intro fuel
    induction fuel with
    | zero => exact fun dfs seenIDs => abides_throw _
    | succ fuel ih =>
      rintro (_ | ⟨key, dfs⟩) seenIDs
      · exact abides_pure
      refine Abides.then (Abides.mapError (abides_quiet (by intro; rfl)) _) fun children => ?_
      refine (hunseen key (key :: seenIDs) children).then fun unseen => ?_
      refine abides_ite (fun _ => ?_) fun _ => ih _ _
      have hrevoke := abides_revokeInternal htree key true nofun
      refine (hrevoke.mapError _).then fun _ => ?_
      exact abides_ite (fun _ => abides_pure) fun _ => ih dfs _
  refine (abides_lookupSalted htree key true).bind ?_
  rintro (_ | te) _
  · exact hloop fuel _ _
  · exact quiet_then (by intro; rfl) fun _ => hloop fuel _ _

end functions

theorem abides_revokeTree {token : SaltedID} {restores : Prop} {l s : Bool} (fuel depth : Nat)
    (clientToken : GoString) : Careful token restores l s (revokeTree fuel depth clientToken) := by
  induction depth generalizing clientToken with
  | zero => exact abides_throw _
  | succ depth ih =>
    refine abides_ite (fun _ => abides_throw _) fun _ => ?_
    exact quiet_then (by intro; rfl) (abides_revokeTreeInternal ih fuel)

end VaultProofs.CountedEntries
