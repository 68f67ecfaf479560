import VaultProofs.CountedEntries

/-!
The limit on the uses of a token. Any number of `UseToken` calls run together with
revocations of parents that orphan their children, and with `handleTidy`.
-/

namespace VaultProofs.UseLimits

open GoStrings EffectPrograms ConcurrentPrograms ProgramOutcomes ProgramProtocols LockedBudgets
open TokenEffects TokenStore TokenTidy CountedEntries
open VaultEffects (GoError)
open HealthyRevocation (persistNeeded_upgraded)

section tidy

variable {token : SaltedID} {restores : Prop} {s : Bool} {revokeTree : GoString → TokenM Unit}
  (htree : ∀ clientToken, Careful token restores false s (revokeTree clientToken))

include htree

theorem abides_tidyChildren (hrestores : restores) (parent : SaltedID) (parentExists : Bool)
    (children : List SaltedID) :
    Careful token restores false s (tidyChildren revokeTree parent parentExists children) := by
  have hdelete : ∀ child, Careful token restores false s (do
        let result ← capture (perform (.deleteIndex (.below parent child)))
        return failure "failed to delete secondary index" result) := by
    intro child
    refine Abides.then (Abides.attempt (abides_quiet (by intro; rfl))) fun _ => ?_
    exact abides_pure
  have hchild : ∀ child, Careful token restores false s
      (tidyChild revokeTree parent parentExists child) := by
    intro child q hq
    refine (obeys_lookupSalted htree child true hq).capture.bind ?_
    rintro (e | _ | te) q₁ hq₁
    · exact hdelete child q₁ hq₁
    · exact hdelete child q₁ hq₁.1
    cases parentExists with
    | true => exact ⟨hq₁.1, trivial⟩
    | false =>
      refine obeys_orphanStore hrestores hq₁.1 (hq₁.2 te rfl) fun result => ?_
      exact abides_pure
  induction children with
  | nil => exact abides_pure
  | cons child rest ih =>
    exact (hchild child).then fun _ => ih.then fun _ => abides_pure

theorem abides_tidyParents (hrestores : restores) (parents : List SaltedID) :
    Careful token restores false s (tidyParents revokeTree parents) := by
  have hparent : ∀ parent, Careful token restores false s (tidyParent revokeTree parent) := by
    intro parent
    refine Abides.then (Abides.attempt (abides_quiet (by intro; rfl))) ?_
    rintro (e | children)
    · exact abides_pure
    · refine Abides.then (abides_lookupSalted htree parent true).attempt fun found => ?_
      exact abides_tidyChildren htree hrestores parent _ children
  induction parents with
  | nil => exact abides_pure
  | cons parent rest ih =>
    exact (hparent parent).then fun _ => ih.then fun _ => abides_pure

theorem abides_lookupInternal (id : GoString) (tainted : Bool) :
    Careful token restores false s (lookupInternal revokeTree id tainted) := by
  refine quiet_then (by intro; rfl) fun key => ?_
  exact (abides_lookupSalted htree key tainted).weaken fun _ _ => trivial

theorem abides_tidyAccessorToken (saltedAccessor : SaltedID) (accessorEntry : AccessorEntry) :
    Careful token restores false s (tidyAccessorToken revokeTree saltedAccessor accessorEntry) := by
  refine quiet_then (by intro; rfl) fun _ => ?_
  refine Abides.then (abides_lookupInternal htree accessorEntry.tokenID true).attempt fun found => ?_
  refine quiet_then (by intro; rfl) fun _ => ?_
  rcases found with e | _ | te
  · exact abides_pure
  · refine Abides.then (abides_revokeByToken htree accessorEntry.tokenID
      accessorEntry.namespaceID []).attempt ?_
    rintro (e | _)
    · exact abides_pure
    · refine Abides.then (Abides.attempt (abides_quiet (by intro; rfl))) fun _ => ?_
      exact abides_pure
  refine abides_ite (fun _ => ?_) fun _ => ?_
  · refine Abides.then (abides_saltID te.id).attempt ?_
    rintro (e | saltedID)
    · exact abides_pure
    · exact abides_pure
  · exact abides_ite (fun _ => abides_pure) fun _ => abides_pure

theorem abides_tidyAccessors (accessors : List SaltedID) :
    Careful token restores false s (tidyAccessors revokeTree accessors) := by
  have hlookup : ∀ saltedAccessor, Careful token restores false s (lookupByAccessor revokeTree saltedAccessor true) := by
    intro saltedAccessor
    refine Abides.then (Abides.mapError (abides_quiet (by intro; rfl)) _) ?_
    rintro (_ | _ | tokenID)
    · exact abides_pure
    · exact abides_pure
    refine Abides.then ((abides_lookupInternal htree tokenID true).mapError _) ?_
    rintro (_ | te)
    · exact abides_pure
    · exact abides_pure
  have haccessor : ∀ saltedAccessor, Careful token restores false s (tidyAccessor revokeTree saltedAccessor) := by
    intro saltedAccessor
    refine Abides.then (hlookup saltedAccessor).attempt ?_
    rintro (e | _ | accessorEntry)
    · exact abides_pure
    · exact abides_pure
    refine abides_ite (fun _ => ?_) fun _ => abides_tidyAccessorToken htree _ _
    refine Abides.then (Abides.attempt (abides_quiet (by intro; rfl))) ?_
    rintro (e | _)
    · exact abides_pure
    · exact abides_tidyAccessorToken htree _ _
  induction accessors with
  | nil => exact abides_pure
  | cons saltedAccessor rest ih =>
    exact (haccessor saltedAccessor).then fun _ => ih.then fun _ => abides_pure

theorem abides_doTidy (hrestores : restores) :
    Careful token restores false s (doTidy revokeTree) := by
  have hcubbyholes : ∀ valid keys, Careful token restores false s (tidyCubbyholes valid keys) := by
    intro valid keys
    induction keys with
    | nil => exact abides_pure
    | cons key rest ih =>
      have hkey : Careful token restores false s (tidyCubbyhole valid key) := by
        refine abides_ite (fun _ => abides_pure) fun _ => ?_
        refine Abides.then (Abides.attempt (abides_quiet (by intro; rfl))) fun _ => ?_
        exact abides_pure
      exact hkey.then fun _ => ih.then fun _ => abides_pure
  refine Abides.then (Abides.mapError (abides_quiet (by intro; rfl)) _) fun accessors => ?_
  refine Abides.then (Abides.mapError (abides_quiet (by intro; rfl)) _) fun parents => ?_
  refine Abides.then (Abides.mapError (abides_quiet (by intro; rfl)) _) fun keys => ?_
  refine (abides_tidyParents htree hrestores parents).then fun _ => ?_
  refine (abides_tidyAccessors htree accessors).then fun findings => ?_
  exact (hcubbyholes findings.validCubbyholeKeys keys).then fun _ => abides_pure

end tidy

section uses

variable {token : SaltedID} {restores : Prop} {revokeTree : GoString → TokenM Unit}

theorem decremented_counted {entry old : TokenEntry} (hpersisted : persistNeeded entry = false)
    (hcounted : Counted (some old)) (huses : entry.numUses = old.numUses)
    (hpositive : 0 ≤ old.numUses) :
    Counted (some (decremented entry)) ∧
      usesLeft (some (decremented entry)) < usesLeft (some old) := by
  have hne := (hcounted old rfl).2
  have hnumUses : (decremented entry).numUses = -1 ∧ old.numUses = 1 ∨
      (decremented entry).numUses = old.numUses - 1 ∧ 2 ≤ old.numUses := by
    simp only [decremented, huses, tokenRevocationPending]
    split
    · exact .inl ⟨rfl, by assumption⟩
    · exact .inr ⟨rfl, by omega⟩
  refine ⟨?_, ?_⟩
  · intro stored hstored
    cases hstored
    exact ⟨hpersisted, by omega⟩
  · simp only [usesLeft]
    omega

theorem obeys_useToken
    (htree : ∀ clientToken, Abides (countedProtocol token restores) (Frame true false)
      (fun _ => True) (revokeTree clientToken))
    {te : TokenEntry} (hte : te.saltedID = token) (huses : te.numUses ≠ 0)
    (hpolicies : te.policies ≠ [controlGroupPolicyName]) :
    Obeys (countedProtocol token restores) (useToken revokeTree (some te)) {}
      (fun _ q => q.spent = true) (fun _ => True) := by
  have hstored : Obeys (countedProtocol token restores) (useStored revokeTree te.id)
      { locked := true } (fun _ q => q.locked = true ∧ q.spent = true) (fun q => q.locked = true) := by
    have hlookup : Obeys (countedProtocol token restores) (lookupInternal revokeTree te.id false)
        { locked := true }
        (fun found q => Frame true false q ∧ ∀ e ∈ found, Looked token token true false e q)
        (Frame true false) := by
      refine (abides_saltID te.id { locked := true } (⟨rfl, rfl⟩ : Frame true false _)).bind ?_
      rintro key q ⟨hq, rfl⟩
      rw [show (⟨te.id⟩ : SaltedID) = token from hte]
      exact obeys_lookupSalted htree token false hq
    refine ((hlookup.mono (fun _ _ h => h) fun _ h => h.1).mapError _).bind ?_
    rintro (_ | entry) q ⟨hq, hfound⟩
    · exact hq.1
    obtain ⟨hsalted, hpersisted, hknown⟩ := hfound entry rfl
    obtain ⟨old, hcounted, huses', -, hheld, hpositive⟩ := hknown rfl
    obtain ⟨hcounted', hless⟩ := decremented_counted hpersisted hcounted huses' (hpositive rfl)
    have hdecremented : (decremented entry).saltedID = token := hsalted
    have hrestores : ∀ value, Event.spend (some (decremented entry)) = .restore value → restores :=
      fun _ h => by cases h
    have hspend := obeys_store hdecremented (fun _ => by simp [Shows, hdecremented])
      (.spend q _ (some old) (hheld rfl) hcounted' hless) hrestores
    refine (hspend.mono (fun _ _ h => h) fun q' h => h.1.trans hq.1).bind ?_
    rintro _ q' rfl
    exact ⟨hq.1, rfl⟩
  rw [useToken, if_neg huses, if_neg hpolicies]
  refine ((obeys_lock hte rfl).mono (fun _ _ h => h) fun _ h => h.elim).bind ?_
  rintro _ q rfl
  refine hstored.capture.bind ?_
  intro result q hq
  have hlocked : q.locked = true := by
    cases result with
    | ok value => exact hq.1
    | error e => exact hq
  refine ((obeys_unlock hte hlocked).mono (fun _ _ h => h) fun _ h => h.elim).bind ?_
  rintro _ q' rfl
  cases result with
  | ok value => exact hq.2
  | error e => trivial

end uses

inductive Call where
  | use (te : TokenEntry)
  | revoke (parent : SaltedID)
  | tidy

def Call.isUse : Call → Bool
  | .use _ => true
  | _ => false

def Call.program (fuel depth : Nat) : Call → TokenM Unit
  | .use te => do
      let _ ← useToken (revokeTree fuel depth) (some te)
      return ()
  | .revoke parent => revokeInternal (revokeTree fuel depth) parent false
  | .tidy => do
      let _ ← doTidy (revokeTree fuel depth)
      return ()

def machine (token : SaltedID) : Machine tokens StepEnv World where
  exec := exec
  access
    | .getEntry key => if key = token then .read else .none
    | .putEntry entry => if entry.saltedID = token then .write else .none
    | .deleteEntry key => if key = token then .write else .none
    | _ => .none

section runs

variable {ι : Type} [DecidableEq ι]

abbrev Calls (ι : Type) := Pool tokens ι World (Except GoError Unit)

def startCalls (calls : ι → Call) (fuel depth : Nat) (s : TokenState) : Calls ι :=
  Pool.start ⟨s, []⟩ fun i => ((calls i).program fuel depth).run

def RespectsLock (i : ι) (c : Calls ι) : Prop :=
  match c.threads i with
  | .call op _ => unblocked c.state.state op = true
  | .ret _ => True

/-- A call that orphans the token writes its uses back only if nobody else has written the entry
since it was read. -/
def OrphansCurrent (calls : ι → Call) (token : SaltedID) (i : ι) (c : Calls ι) : Prop :=
  match c.threads i with
  | .call (.putEntry entry) _ => (calls i).isUse = false → entry.saltedID = token →
      entry.numUses ≠ tokenRevocationPending → c.seen i = c.version
  | _ => True

instance (i : ι) (c : Calls ι) : Decidable (RespectsLock i c) := by
  unfold RespectsLock
  split <;> infer_instance

instance (calls : ι → Call) (token : SaltedID) (i : ι) (c : Calls ι) :
    Decidable (OrphansCurrent calls token i c) := by
  unfold OrphansCurrent
  split <;> infer_instance

/-- The entry and the lock of the token with what the calls know of them. -/
def snapshot (token : SaltedID) (taken : Bool) (w : World) (version : Nat) (seen : ι → Nat)
    (phases : ι → Phase (Option TokenEntry)) : Snapshot ι (Option TokenEntry) :=
  ⟨w.state.entries.find token, taken, version, seen, phases⟩

def Within (token : SaltedID) (n : Nat) (w : World) (version : Nat) (seen : ι → Nat)
    (phases : ι → Phase (Option TokenEntry)) : Prop :=
  ∃ taken, (taken = true → (token.id, true) ∈ w.state.locks) ∧
    Safe usesLeft Counted n (snapshot token taken w version seen phases)

omit [DecidableEq ι] in
theorem Within.answers {token : SaltedID} {n : Nat} {w : World} {version : Nat} {seen : ι → Nat}
    {phases : ι → Phase (Option TokenEntry)} (h : Within token n w version seen phases)
    (e : StepEnv) (op : TokenOp) : Answers token op (exec e op w).1 := by
  obtain ⟨taken, -, hsafe⟩ := h
  cases op with
  | getEntry key =>
    rw [exec]
    split
    · trivial
    intro entry hentry
    have hkey := w.state.entries.keyed key entry hentry
    refine ⟨hkey.symm, ?_⟩
    rintro rfl
    have hcell : Counted (w.state.entries.find key) := hsafe.good_cell
    exact (Option.mem_def.mp hentry) ▸ hcell
  | saltID id =>
    rw [exec]
    split
    · trivial
    · exact rfl
  | lock id | unlock id => simp [Answers, exec, TokenOp.stored, effect]
  | _ => trivial

/-- The limit is kept by an operation of call `i` that leads to the world `w'` and the
phase `q`. -/
def WithinAfter (token : SaltedID) (n version : Nat) (seen : ι → Nat)
    (phases : ι → Phase (Option TokenEntry)) (i : ι) (op : TokenOp) (w' : World)
    (q : Phase (Option TokenEntry)) : Prop :=
  Within token n w' (Pool.nextVersion version ((machine token).access op))
    (Pool.nextSeen version seen i ((machine token).access op)) (Function.update phases i q)

theorem WithinAfter.of_event {token : SaltedID} {n : Nat} {w w' : World} {version : Nat}
    {seen : ι → Nat} {phases : ι → Phase (Option TokenEntry)} {i : ι} {taken : Bool}
    {event : Event (Option TokenEntry)} {q : Phase (Option TokenEntry)} {op : TokenOp}
    (hsafe : Safe usesLeft Counted n (snapshot token taken w version seen phases))
    (hmove : Move usesLeft Counted (phases i) event q)
    (henabled : (snapshot token taken w version seen phases).Enabled i event)
    (hcell : w'.state.entries.find token = event.cellAfter (w.state.entries.find token))
    (haccess : (machine token).access op = event.access)
    (htaken : event.takenAfter taken = true → (token.id, true) ∈ w'.state.locks) :
    WithinAfter token n version seen phases i op w' q := by
  refine ⟨event.takenAfter taken, htaken, ?_⟩
  have hafter := hsafe.after henabled hmove
  rw [haccess, snapshot, hcell]
  exact hafter

section steps

variable {token : SaltedID} {n : Nat} {w : World} {version : Nat} {seen : ι → Nat}
  {phases : ι → Phase (Option TokenEntry)} {i : ι} {restores : Prop} {taken : Bool}
  {event : Event (Option TokenEntry)} {q : Phase (Option TokenEntry)}

theorem find_exec {e : StepEnv} {op : TokenOp} (hop : (machine token).access op ≠ .write) :
    (exec e op w).2.state.entries.find token = w.state.entries.find token := by
  rcases exec_cases e op w with ⟨-, hexec⟩ | hexec
  · rw [hexec]
  rw [hexec]
  cases op with
  | putEntry entry => exact TokenTable.find_put_of_ne _ fun h => hop (if_pos h.symm)
  | deleteEntry key => exact TokenTable.find_delete_of_ne _ fun h => hop (if_pos h.symm)
  | _ => rfl

theorem locks_exec {e : StepEnv} {op : TokenOp} (hop : op ≠ .unlock token.id)
    (h : (token.id, true) ∈ w.state.locks) : (token.id, true) ∈ (exec e op w).2.state.locks := by
  rcases exec_cases e op w with ⟨-, hexec⟩ | hexec
  · rw [hexec]
    exact h
  rw [hexec]
  cases op with
  | lock id | rLock id => exact .tail _ h
  | unlock id => exact (List.mem_erase_of_ne fun heq => hop (by cases heq; rfl)).mpr h
  | rUnlock id => exact (List.mem_erase_of_ne (by simp)).mpr h
  | _ => exact h

theorem clear_of_restore {entry : TokenEntry} (hentry : entry.numUses = tokenRevocationPending)
    {q q' : Phase (Option TokenEntry)}
    (hmove : Move usesLeft Counted q (.restore (some entry)) q') :
    Move usesLeft Counted q (.clear (some entry)) q' := by
  cases hmove with
  | restore value old hcopy hgood hbudget =>
    refine .clear q (some entry) hgood ?_
    rw [usesLeft, hentry]
    rfl

theorem Within.step {e : StepEnv} {op : TokenOp} (h : Within token n w version seen phases)
    (hlock : unblocked w.state op = true)
    (hcurrent : restores → ∀ entry, op = .putEntry entry → entry.saltedID = token →
      entry.numUses ≠ tokenRevocationPending → seen i = version)
    (hstep : (countedProtocol token restores).step (phases i) op (exec e op w).1 q) :
    WithinAfter token n version seen phases i op (exec e op w).2 q := by
  obtain ⟨taken, htaken, hsafe⟩ := h
  obtain ⟨event, hshows, hmove, hrestores⟩ := hstep
  -- what does not show on the entry or its lock, and what fails
  have hquiet : event = .quiet → (machine token).access op = .none → op ≠ .unlock token.id →
      WithinAfter token n version seen phases i op (exec e op w).2 q := by
    rintro rfl haccess hop
    exact .of_event hsafe hmove trivial (find_exec (by simp [haccess])) haccess
      fun h => locks_exec hop (htaken h)
  have hforget : event = .forget ((machine token).access op) → (exec e op w).2.state = w.state →
      WithinAfter token n version seen phases i op (exec e op w).2 q := by
    rintro rfl hstate
    exact .of_event hsafe hmove trivial (hstate ▸ rfl) rfl (hstate ▸ htaken)
  cases op with
  | getEntry key =>
    by_cases hkey : key = token
    · rcases exec_cases e (.getEntry key) w with ⟨-, hexec⟩ | hexec
      · exact hforget (by simpa [hexec, Shows, hkey, machine] using hshows) (by rw [hexec])
      · obtain rfl : event = .read (w.state.entries.find token) := by
          simpa [hexec, Shows, hkey, effect] using hshows
        rw [hexec]
        exact .of_event hsafe hmove rfl rfl (if_pos hkey) htaken
    · refine hquiet ?_ (if_neg hkey) (by simp)
      cases hanswer : (exec e (.getEntry key) w).1 <;> simpa [hanswer, Shows, hkey] using hshows
  | putEntry entry =>
    by_cases hkey : entry.saltedID = token
    · rcases exec_cases e (.putEntry entry) w with ⟨-, hexec⟩ | hexec
      · exact hforget (by simpa [hexec, Shows, hkey, machine] using hshows) (by rw [hexec])
      have hfind : (w.state.entries.put entry).find token = some entry :=
        hkey ▸ TokenTable.find_put_self ..
      have hevent : event = .restore (some entry) ∨ event = .clear (some entry) ∨
          event = .spend (some entry) := by simpa [hexec, Shows, hkey, effect] using hshows
      rw [hexec]
      rcases hevent with rfl | rfl | rfl
      · by_cases hentry : entry.numUses = tokenRevocationPending
        · exact .of_event hsafe (clear_of_restore hentry hmove) trivial hfind (if_pos hkey) htaken
        · have hseen := hcurrent (hrestores _ rfl) entry rfl hkey hentry
          exact .of_event hsafe hmove hseen hfind (if_pos hkey) htaken
      · exact .of_event hsafe hmove trivial hfind (if_pos hkey) htaken
      · exact .of_event hsafe hmove trivial hfind (if_pos hkey) htaken
    · refine hquiet ?_ (if_neg hkey) (by simp)
      cases hanswer : (exec e (.putEntry entry) w).1 <;> simpa [hanswer, Shows, hkey] using hshows
  | deleteEntry key =>
    by_cases hkey : key = token
    · rcases exec_cases e (.deleteEntry key) w with ⟨-, hexec⟩ | hexec
      · exact hforget (by simpa [hexec, Shows, hkey, machine] using hshows) (by rw [hexec])
      · obtain rfl : event = .clear none := by simpa [hexec, Shows, hkey, effect] using hshows
        rw [hexec]
        exact .of_event hsafe hmove trivial (hkey ▸ TokenTable.find_delete_self ..) (if_pos hkey)
          htaken
    · refine hquiet ?_ (if_neg hkey) (by simp)
      cases hanswer : (exec e (.deleteEntry key) w).1 <;> simpa [hanswer, Shows, hkey] using hshows
  | lock id =>
    by_cases hid : (⟨id⟩ : SaltedID) = token
    · obtain rfl : event = .lock := by simpa [Shows, hid] using hshows
      subst hid
      simp only [unblocked, decide_eq_true_eq] at hlock
      refine .of_event hsafe hmove (Bool.eq_false_iff.mpr fun h => hlock.1 (htaken h))
        (find_exec (by simp [machine])) rfl fun _ => ?_
      simp [exec, TokenOp.stored, effect]
    · exact hquiet (by simpa [Shows, hid] using hshows) rfl (by simp)
  | unlock id =>
    by_cases hid : (⟨id⟩ : SaltedID) = token
    · obtain rfl : event = .unlock := by simpa [Shows, hid] using hshows
      refine .of_event hsafe hmove trivial (find_exec (by simp [machine])) rfl fun h => ?_
      cases h
    · exact hquiet (by simpa [Shows, hid] using hshows) rfl fun h => hid (by cases h; rfl)
  | _ => exact hquiet hshows rfl (by simp)

end steps

def Accounted (calls : ι → Call) (i : ι) (q : Phase (Option TokenEntry))
    (result : Except GoError Unit) : Prop :=
  (calls i).isUse = true → result = .ok () → q.spent = true

omit [DecidableEq ι] in
theorem follows_program (calls : ι → Call) (fuel depth : Nat) (token : SaltedID)
    (huses : ∀ i te, calls i = .use te → te.saltedID = token ∧ te.numUses ≠ 0 ∧
      te.policies ≠ [controlGroupPolicyName]) (i : ι) :
    (countedProtocol token ((calls i).isUse = false)).Follows (Accounted calls i) {}
      ((calls i).program fuel depth).run := by
  have hstart : Frame false false ({} : Phase (Option TokenEntry)) := ⟨rfl, rfl⟩
  -- A call that is not a use has nothing to account for.
  have hfree : ∀ x : TokenM Unit, (calls i).isUse = false →
      Abides (countedProtocol token ((calls i).isUse = false)) (Frame false false) (fun _ => True) x →
      (countedProtocol token ((calls i).isUse = false)).Follows (Accounted calls i) {} x.run := by
    intro x hcall hx
    refine Protocol.Follows.mono ?_ (Ends.follows (hx {} hstart))
    intro q result _ huse
    rw [hcall] at huse
    cases huse
  cases hcall : calls i with
  | use te =>
    obtain ⟨hte, hnumUses, hpolicies⟩ := huses i te hcall
    have hprogram : Obeys (countedProtocol token ((Call.use te).isUse = false))
        (Call.program fuel depth (.use te)) {} (fun _ q => q.spent = true) (fun _ => True) :=
      (obeys_useToken (abides_revokeTree fuel depth) hte hnumUses hpolicies).bind fun _ _ h => h
    refine Protocol.Follows.mono ?_ (Ends.follows hprogram)
    rintro q (e | _) hq _ hresult
    · cases hresult
    · exact hq
  | revoke parent =>
    rw [hcall] at hfree
    exact hfree _ rfl (abides_revokeInternal (abides_revokeTree fuel depth) parent false
      fun _ => ⟨rfl, rfl⟩)
  | tidy =>
    rw [hcall] at hfree
    refine hfree _ rfl ?_
    exact (abides_doTidy (abides_revokeTree fuel depth) rfl).then fun _ => abides_pure

/-- No more calls of `UseToken` succeed than the token has uses, in every interleaving in which a
call that orphans the token writes back what it has read only while nobody else has written the
entry. -/
theorem uses_within_limit (calls : ι → Call) (fuel depth : Nat) (s : TokenState)
    (entry : TokenEntry) (n : Nat) (hn : 0 < n) (hcreated : entry.numUses = n)
    (hfresh : persistNeeded entry = false)
    (hstored : s.entries.find entry.saltedID = some entry)
    (huses : ∀ i te, calls i = .use te → te.saltedID = entry.saltedID ∧ te.numUses ≠ 0 ∧
      te.policies ≠ [controlGroupPolicyName])
    (schedule : List (ι × StepEnv))
    (halong : Pool.Along (machine entry.saltedID)
      (fun i _ c => RespectsLock i c ∧ OrphansCurrent calls entry.saltedID i c) schedule
      (startCalls calls fuel depth s))
    (succeeded : Finset ι)
    (hsucceeded : ∀ i ∈ succeeded, (calls i).isUse = true ∧
      (Pool.runSchedule (machine entry.saltedID) schedule
        (startCalls calls fuel depth s)).threads i = .ret (.ok ())) :
    succeeded.card ≤ n := by
  have hstart : Pool.Tracks
      (fun i => countedProtocol entry.saltedID ((calls i).isUse = false)) (Accounted calls)
      (Within entry.saltedID n) (startCalls calls fuel depth s) := by
    refine ⟨fun _ => {}, follows_program calls fuel depth entry.saltedID huses, false, ?_, ?_⟩
    · exact nofun
    refine Safe.start _ false ?_ ?_
    · intro found hfound
      cases hstored.symm.trans hfound
      exact ⟨hfresh, by omega⟩
    · change usesLeft (s.entries.find entry.saltedID) ≤ n
      rw [hstored, usesLeft]
      omega
  have hstep : ∀ i e c, True →
      (RespectsLock i c ∧ OrphansCurrent calls entry.saltedID i c) →
      Pool.Tracks (fun i => countedProtocol entry.saltedID ((calls i).isUse = false))
        (Accounted calls) (Within entry.saltedID n) c →
      Pool.Tracks (fun i => countedProtocol entry.saltedID ((calls i).isUse = false))
        (Accounted calls) (Within entry.saltedID n)
        (Pool.advance (machine entry.saltedID) i e c) := by
    rintro i e c - ⟨hlock, hcurrent⟩ hc
    have hready : ∀ op next, c.threads i = .call op next → unblocked c.state.state op = true ∧
        ((calls i).isUse = false → ∀ stored, op = .putEntry stored →
          stored.saltedID = entry.saltedID → stored.numUses ≠ tokenRevocationPending →
          c.seen i = c.version) := by
      intro op next hop
      rw [RespectsLock, hop] at hlock
      refine ⟨hlock, ?_⟩
      rintro huse stored rfl
      rw [OrphansCurrent, hop] at hcurrent
      exact hcurrent huse
    refine Pool.tracks_step ?_ hready ?_ hc
    · exact fun op phases h => h.answers e op
    · exact fun op phases q h hop hmove => Within.step h hop.1 hop.2 hmove
  obtain ⟨phases, hphases, taken, -, hsafe⟩ :=
    Pool.runSchedule_preserves hstep schedule _ (fun _ _ => trivial) halong hstart
  obtain ⟨spenders, hspent, hcell, -⟩ := hsafe.within
  have hsub : succeeded ⊆ spenders := by
    intro i hi
    obtain ⟨huse, hthread⟩ := hsucceeded i hi
    have hfinal := hphases i
    rw [hthread] at hfinal
    exact hspent i (hfinal huse rfl)
  have := Finset.card_le_card hsub
  omega

end runs

def parentToken : TokenEntry where
  id := ofString "p"
  path := ofString "auth/token/create"
  id_ne_nil := by decide
  namespace_root := rootNamespaceID_root
  cubbyhole_ne_nil := by decide
  path_clean := createPath_clean

def childToken : TokenEntry where
  id := ofString "c"
  parent := ofString "p"
  path := ofString "auth/token/create"
  numUses := 1
  id_ne_nil := by decide
  namespace_root := rootNamespaceID_root
  cubbyhole_ne_nil := by decide
  path_clean := createPath_clean

def familyStore : TokenState where
  entries := (TokenTable.empty.put parentToken).put childToken
  parents := [(parentToken.saltedID, childToken.saltedID)]
  leases leaseID :=
    if leaseID.path = ofString "auth/token/create" then some ⟨leaseID.token.id, 10⟩ else none

def familyCalls : Fin 3 → Call
  | 0 => .use childToken
  | 1 => .use childToken
  | 2 => .revoke parentToken.saltedID

def turns (i : Fin 3) (count : Nat) : List (Fin 3 × StepEnv) :=
  List.replicate count (i, {})

/-- The revocation has read the child when the first use runs, and writes it back
before the second. -/
def overuse : List (Fin 3 × StepEnv) :=
  turns 2 20 ++ turns 0 11 ++ turns 2 9 ++ turns 1 11

theorem orphaned_token_overused :
    Pool.Along (machine childToken.saltedID) (fun i _ c => RespectsLock i c) overuse
        (startCalls familyCalls 1 1 familyStore) ∧
      (∀ i ∈ ({0, 1} : Finset (Fin 3)), (familyCalls i).isUse = true ∧
        (Pool.runSchedule (machine childToken.saltedID) overuse
          (startCalls familyCalls 1 1 familyStore)).threads i = .ret (.ok ())) ∧
      childToken.numUses = 1 ∧ ¬ ({0, 1} : Finset (Fin 3)).card ≤ 1 := by
  refine ⟨by decide, ?_, rfl, by decide⟩
  intro i hi
  rcases Finset.mem_insert.mp hi with rfl | hi
  · exact ⟨rfl, rfl⟩
  · obtain rfl := Finset.mem_singleton.mp hi
    exact ⟨rfl, rfl⟩

def inTurn : List (Fin 3 × StepEnv) :=
  turns 2 32 ++ turns 0 11 ++ turns 1 11

theorem orphaned_token_used_once :
    (Pool.runSchedule (machine childToken.saltedID) inTurn
        (startCalls familyCalls 1 1 familyStore)).threads 0 = .ret (.ok ()) ∧
      ({0} : Finset (Fin 3)).card ≤ 1 := by
  refine ⟨rfl, uses_within_limit familyCalls 1 1 familyStore childToken 1 (by decide) rfl rfl rfl
    ?_ inTurn (by decide) {0} ?_⟩
  · intro i te hcall
    obtain rfl : te = childToken := by
      match i with
      | 0 | 1 => exact (Call.use.inj hcall).symm
      | 2 => cases hcall
    exact ⟨rfl, by decide, by decide⟩
  · intro i hi
    obtain rfl := Finset.mem_singleton.mp hi
    exact ⟨rfl, rfl⟩

end VaultProofs.UseLimits
