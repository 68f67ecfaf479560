import VaultProofs.TokenLookups
import VaultProofs.TreeRevocation

/-!
A token is created below a parent whose tree is being revoked. The creation looks the parent up,
writes the index and then the entry; the revocation walks the index.
-/

namespace VaultProofs.EscapedChildren

open GoStrings ConcurrentPrograms ProgramOutcomes SharedPrograms TokenEffects TokenStore
open HealthyRevocation TokenLookups TreeRevocation
open VaultEffects (GoError)

inductive Party where
  | creator
  | revoker
  deriving DecidableEq

/-- `create` for a child of the parent, and `revokeTreeInternal` for the parent. -/
def Party.program (entry : TokenEntry) (userSelectedID : Bool) (fuel depth : Nat) :
    Party → TokenM Unit
  | .creator => create (revokeTree fuel depth) entry userSelectedID
  | .revoker => revokeTreeInternal (revokeTree fuel depth) fuel ⟨entry.parent⟩

def machine : Machine tokens StepEnv World where
  exec := exec
  access _ := .none

abbrev Calls := Pool tokens Party World (Except GoError Unit)

def startCalls (s : TokenState) (entry : TokenEntry) (userSelectedID : Bool) (fuel depth : Nat) :
    Calls :=
  .start ⟨s, []⟩ fun i => (i.program entry userSelectedID fuel depth).run

def BothReturned (c : Calls) : Prop :=
  c.threads .creator = .ret (.ok ()) ∧ c.threads .revoker = .ret (.ok ())

/-- The revocation lists the children of the parent only after the entry of the child is written,
and nothing fails. -/
def WrittenBeforeListed (entry : TokenEntry) (i : Party) (env : StepEnv) (c : Calls) : Prop :=
  env.fails = false ∧
    match i, c.threads i with
    | .revoker, .call (.listChildren parent) _ =>
      parent = ⟨entry.parent⟩ → .putEntry (created entry) ∈ c.state.log
    | _, _ => True

instance (entry : TokenEntry) (i : Party) (env : StepEnv) (c : Calls) :
    Decidable (WrittenBeforeListed entry i env c) := by
  unfold WrittenBeforeListed
  refine @instDecidableAnd _ _ inferInstance ?_
  split <;> infer_instance

section meanwhile

variable (s : TokenState) (entry : TokenEntry)

def indexed : List (SaltedID × SaltedID) :=
  deletePath s.parents (.below ⟨entry.parent⟩ entry.saltedID) ++ [(⟨entry.parent⟩, entry.saltedID)]

/-- What the two calls leave of the store `s` before the walk lists the children; `written` says
whether the child is stored. -/
structure Meanwhile (written : Bool) (w : World) : Prop where
  leases : w.state.leases = s.leases
  pending : w.state.pending = s.pending
  parent : w.state.entries.find ⟨entry.parent⟩ = s.entries.find ⟨entry.parent⟩ ∨
    w.state.entries.find ⟨entry.parent⟩ = (s.entries.find ⟨entry.parent⟩).map upgraded
  index : w.state.parents = s.parents ∨ w.state.parents = indexed s entry
  logged : .putEntry (created entry) ∈ w.log ↔ written = true
  child : w.state.entries.find entry.saltedID = if written then some (created entry) else none
  linked : written = true → w.state.parents = indexed s entry

def Calm (op : TokenOp) : Prop :=
  ∀ written w now, Meanwhile s entry written w →
    Meanwhile s entry written ⟨(effect now op w.state).2, op :: w.log⟩ ∧
      (effect now op w.state).2.parents = w.state.parents

variable {s entry}

variable {w : World}

theorem Meanwhile.read {written : Bool} (h : Meanwhile s entry written w) {op : TokenOp}
    (hop : op ≠ .putEntry (created entry)) {state : TokenState}
    (hentries : state.entries = w.state.entries) (hparents : state.parents = w.state.parents)
    (hleases : state.leases = w.state.leases) (hpending : state.pending = w.state.pending) :
    Meanwhile s entry written ⟨state, op :: w.log⟩ where
  leases := hleases.trans h.leases
  pending := hpending.trans h.pending
  parent := by
    rw [hentries]
    exact h.parent
  index := by
    rw [hparents]
    exact h.index
  logged := by
    rw [← h.logged, List.mem_cons, or_iff_right (Ne.symm hop)]
  child := by
    rw [hentries]
    exact h.child
  linked hwritten := hparents.trans (h.linked hwritten)

theorem calm_of_read {op : TokenOp} (hop : op ≠ .putEntry (created entry) := by simp)
    (heffect : ∀ now state, (effect now op state).2.entries = state.entries ∧
      (effect now op state).2.parents = state.parents ∧
      (effect now op state).2.leases = state.leases ∧
      (effect now op state).2.pending = state.pending := by simp [effect]) :
    Calm s entry op := by
  intro written w now h
  obtain ⟨hentries, hparents, hleases, hpending⟩ := heffect now w.state
  exact ⟨h.read hop hentries hparents hleases hpending, hparents⟩

theorem upgraded_upgraded (stored : TokenEntry) : upgraded (upgraded stored) = upgraded stored := by
  simp only [upgraded]
  congr 1
  · split <;> simp_all
  · split <;> simp_all
  · split <;> simp_all
  · split <;> simp_all

def ParentCell (s : TokenState) (entry : TokenEntry) (cell : Option TokenEntry) : Prop :=
  cell = s.entries.find ⟨entry.parent⟩ ∨ cell = (s.entries.find ⟨entry.parent⟩).map upgraded

theorem ParentCell.upgraded {stored : TokenEntry} (h : ParentCell s entry (some stored)) :
    stored.saltedID = ⟨entry.parent⟩ ∧
      some (upgraded stored) = (s.entries.find ⟨entry.parent⟩).map upgraded := by
  rcases h with hsame | hup
  · exact ⟨(s.entries.keyed _ _ hsame.symm).symm, by rw [← hsame]; rfl⟩
  obtain ⟨first, hfirst, rfl⟩ := Option.map_eq_some_iff.mp hup.symm
  refine ⟨(s.entries.keyed _ _ hfirst).symm, ?_⟩
  rw [upgraded_upgraded, hfirst]
  rfl

theorem calm_upgrade (hne : entry.id ≠ entry.parent) {stored : TokenEntry}
    (h : ParentCell s entry (some stored)) : Calm s entry (.putEntry (upgraded stored)) := by
  obtain ⟨hkey, hcell⟩ := h.upgraded
  have hkey' : (upgraded stored).saltedID = ⟨entry.parent⟩ := hkey
  have hchild : entry.saltedID ≠ (upgraded stored).saltedID := by
    rw [hkey']
    exact fun h => hne (congrArg SaltedID.id h)
  have hop : TokenOp.putEntry (upgraded stored) ≠ .putEntry (created entry) :=
    fun h => hchild (congrArg TokenEntry.saltedID (TokenOp.putEntry.inj h)).symm
  intro written w now h
  refine ⟨⟨h.leases, h.pending, .inr ?_, h.index, ?_, ?_, h.linked⟩, rfl⟩
  · rw [← hcell, ← hkey']
    exact TokenTable.find_put_self _ _
  · rw [← h.logged, List.mem_cons, or_iff_right (Ne.symm hop)]
  · rw [← h.child]
    exact TokenTable.find_put_of_ne _ hchild

structure Calms (s : TokenState) (entry : TokenEntry) (L : Logic tokens World)
    (K : World → Prop) : Prop where
  meanwhile : ∀ w, K w → ∃ written, Meanwhile s entry written w
  step : ∀ {op : TokenOp} {Q : op.Result → Prop}, Calm s entry op →
    (∀ w now value, K w → (effect now op w.state).1 = .ok value → Q value) →
      Keeps L K K Q (perform op)

section parent

variable {L : Logic tokens World} {K : World → Prop}

section

variable (h : Calms s entry L K)

include h

theorem Calms.quiet {op : TokenOp} (hop : Calm s entry op) :
    Keeps L K K (fun _ => True) (perform op) :=
  h.step hop fun _ _ _ _ _ => trivial

theorem Calms.namespaceByID (nsID : GoString) : Keeps L K K (fun _ => True) (namespaceByID nsID) :=
  h.quiet calm_of_read

theorem Calms.reads : Reads L K K where
  rootNamespace := h.namespaceByID _
  saltID id := by
    refine h.step calm_of_read ?_
    intro w now value _ hvalue
    exact (Except.ok.inj hvalue).symm
  timeNow := h.quiet calm_of_read

theorem Calms.getParent :
    Keeps L K K (ParentCell s entry) (perform (.getEntry ⟨entry.parent⟩)) := by
  refine h.step calm_of_read ?_
  intro w now value hw hvalue
  obtain ⟨written, hmeanwhile⟩ := h.meanwhile w hw
  cases hvalue
  exact hmeanwhile.parent

theorem Calms.upkept (hne : entry.id ≠ entry.parent) (hleased : Leased s ⟨entry.parent⟩)
    {stored : TokenEntry} (hstored : ParentCell s entry (some stored)) : Upkept L K K stored where
  lease hbare := by
    refine h.step calm_of_read ?_
    intro w now value hw hvalue
    obtain ⟨written, hmeanwhile⟩ := h.meanwhile w hw
    cases hvalue
    rw [hmeanwhile.leases, hstored.upgraded.1]
    rcases hstored with hsame | hup
    · exact (hleased stored hsame.symm).resolve_left hbare
    · obtain ⟨first, hfirst, rfl⟩ := Option.map_eq_some_iff.mp hup.symm
      refine (hleased first hfirst).resolve_left fun hfree => hbare ?_
      exact hfree.imp id upgraded_type_ent.mpr
  put _ := h.quiet (calm_upgrade hne hstored)

theorem Calms.lookupParent (hne : entry.id ≠ entry.parent) (hleased : Leased s ⟨entry.parent⟩)
    (revokeTree : GoString → TokenM Unit) (tainted : Bool) :
    Keeps L K K (fun _ => True) (lookupSalted revokeTree ⟨entry.parent⟩ tainted) := by
  intro w hw
  have hget : Finishes L (perform (.getEntry ⟨entry.parent⟩)) w
      (fun cell w' => K w' ∧ ParentCell s entry cell ∧ ∀ stored ∈ cell, K w') fun _ => K :=
    (h.getParent w hw).imp fun _ _ hcell => ⟨hcell.1, hcell.2, fun _ _ => hcell.1⟩
  exact (finishes_lookupSalted hget (fun _ _ hw => hw) (fun _ _ => h.reads)
    (fun stored hstored => h.upkept hne hleased hstored) tainted).imp
      fun _ _ hfound => ⟨hfound.1, trivial⟩

end

end parent

/-- How `create` moves the store: until the child is written it keeps what the revocation has
met. -/
def CreatorMoves (s : TokenState) (entry : TokenEntry) (w w' : World) : Prop :=
  w' = w ∨ Meanwhile s entry false w ∧ ∃ written, Meanwhile s entry written w'

/-- How the revocation moves the store: until the child is written it leaves the index alone. -/
def RevokerMoves (s : TokenState) (entry : TokenEntry) (w w' : World) : Prop :=
  (Meanwhile s entry false w →
    Meanwhile s entry false w' ∧ w'.state.parents = w.state.parents) ∧
  (.putEntry (created entry) ∈ w.log → .putEntry (created entry) ∈ w'.log)

/-- The steps of the revocation, which lists the children of the parent only after the child is
written. -/
def revokerStep (entry : TokenEntry) : Outcomes tokens World := fun op w answer w' =>
  healthyStep op w answer w' ∧
    (op = .listChildren ⟨entry.parent⟩ → .putEntry (created entry) ∈ w.log)

def creatorLogic (s : TokenState) (entry : TokenEntry) : Logic tokens World :=
  sharing (RevokerMoves s entry) (CreatorMoves s entry) healthyStep

def revokerLogic (s : TokenState) (entry : TokenEntry) : Logic tokens World :=
  sharing (CreatorMoves s entry) (RevokerMoves s entry) (revokerStep entry)

variable (s entry) in
def contract : Party → Contract tokens World (Except GoError Unit)
  | .creator =>
    { rely := RevokerMoves s entry
      guar := CreatorMoves s entry
      outcomes := healthyStep
      post := fun _ _ => True
      rely_trans := by
        rintro a b c ⟨hab, hlogab⟩ ⟨hbc, hlogbc⟩
        refine ⟨fun ha => ?_, fun ha => hlogbc (hlogab ha)⟩
        obtain ⟨hb, hparents⟩ := hab ha
        obtain ⟨hc, hparents'⟩ := hbc hb
        exact ⟨hc, hparents'.trans hparents⟩
      post_rely := fun _ _ _ _ _ => trivial }
  | .revoker =>
    { rely := CreatorMoves s entry
      guar := RevokerMoves s entry
      outcomes := revokerStep entry
      post := fun result w => result = .ok () →
        .putEntry (created entry) ∈ w.log ∧ w.state.entries.find entry.saltedID = none
      rely_trans := by
        rintro a b c (rfl | ⟨ha, hb⟩) hbc
        · exact hbc
        · rcases hbc with rfl | ⟨-, hc⟩
          · exact .inr ⟨ha, hb⟩
          · exact .inr ⟨ha, hc⟩
      post_rely := by
        rintro result w w' (rfl | ⟨hw, -⟩) hpost hresult
        · exact hpost hresult
        · exact absurd (hw.logged.mp (hpost hresult).1) (by simp) }

theorem calms_creator :
    Calms s entry (creatorLogic s entry) (Meanwhile s entry false) where
  meanwhile w hw := ⟨false, hw⟩
  step hop hQ := by
    refine keeps_shared (fun w w₁ hw hrely => (hrely.1 hw).1) ?_
    intro w answer w' hw hstep
    obtain ⟨now, rfl, rfl⟩ := healthyStep_iff.mp hstep
    have hw' := (hop false w now hw).1
    exact ⟨.inr ⟨hw, false, hw'⟩, hw', fun value => hQ w now value hw⟩

theorem calms_revoker : Calms s entry (revokerLogic s entry)
    (fun w => ∃ written, Meanwhile s entry written w) where
  meanwhile w hw := hw
  step hop hQ := by
    refine keeps_shared ?_ ?_
    · rintro w w₁ hw (rfl | ⟨-, hw₁⟩)
      · exact hw
      · exact hw₁
    rintro w answer w' ⟨written, hw⟩ ⟨hstep, -⟩
    obtain ⟨now, rfl, rfl⟩ := healthyStep_iff.mp hstep
    refine ⟨⟨hop false w now, .tail _⟩,
      ⟨written, (hop written w now hw).1⟩, fun value => hQ w now value ⟨written, hw⟩⟩

theorem indexed_length : (indexed s entry).length ≤ s.parents.length + 1 := by
  rw [indexed, List.length_append]
  exact Nat.add_le_add (List.length_filter_le ..) le_rfl

theorem indexed_again :
    deletePath (indexed s entry) (.below ⟨entry.parent⟩ entry.saltedID) ++
      [(⟨entry.parent⟩, entry.saltedID)] = indexed s entry := by
  simp [indexed, deletePath]

theorem Meanwhile.putIndex (h : Meanwhile s entry false w) :
    Meanwhile s entry false ⟨{ w.state with parents := indexed s entry },
      .putIndex ⟨entry.parent⟩ entry.saltedID :: w.log⟩ where
  leases := h.leases
  pending := h.pending
  parent := h.parent
  index := .inr rfl
  logged := by
    rw [← h.logged, List.mem_cons, or_iff_right (by simp)]
  child := h.child
  linked hwritten := by cases hwritten

theorem Meanwhile.putChild (h : Meanwhile s entry false w) (hne : entry.id ≠ entry.parent)
    (hlinked : w.state.parents = indexed s entry) :
    Meanwhile s entry true ⟨{ w.state with entries := w.state.entries.put (created entry) },
      .putEntry (created entry) :: w.log⟩ where
  leases := h.leases
  pending := h.pending
  parent := by
    have hkey : (⟨entry.parent⟩ : SaltedID) ≠ (created entry).saltedID :=
      fun heq => hne (congrArg SaltedID.id heq).symm
    rw [TokenTable.find_put_of_ne _ hkey]
    exact h.parent
  index := h.index
  logged := by simp
  child := TokenTable.find_put_self _ _
  linked _ := hlinked

section creator

variable (hne : entry.id ≠ entry.parent) (hleased : Leased s ⟨entry.parent⟩)
  (revokeTree : GoString → TokenM Unit)

include hne hleased

theorem creator_storeCommon (hparent : entry.parent ≠ []) {w : World}
    (hw : Meanwhile s entry false w) :
    Finishes (creatorLogic s entry)
      (storeCommon (lookup revokeTree) (created entry) true) w (fun _ _ => True)
      (fun _ _ => True) := by
  have hcalms : Calms s entry (creatorLogic s entry) (Meanwhile s entry false) :=
    calms_creator
  have hreads := hcalms.reads
  refine ((hcalms.namespaceByID _).lax hw).bind ?_
  rintro _ w₁ ⟨hw₁, -⟩
  refine ((hreads.saltID _).lax hw₁).bind ?_
  rintro _ w₂ ⟨hw₂, rfl⟩
  -- After the index has been written, the child is below its parent.
  have hindex : Finishes (creatorLogic s entry)
      (writeParentIndex (lookup revokeTree) (created entry) ⟨entry.id⟩ true) w₂
      (fun _ w' => Meanwhile s entry false w' ∧ w'.state.parents = indexed s entry)
      (fun _ _ => True) := by
    rw [writeParentIndex, if_neg (by rintro (h | h); cases h; exact hparent h)]
    have hlookup : Keeps (creatorLogic s entry)
        (Meanwhile s entry false) (Meanwhile s entry false) (fun _ => True)
        (lookup revokeTree entry.parent) :=
      keeps_lookup (hreads.saltID _)
        (hcalms.quiet calm_of_read)
        (hcalms.quiet calm_of_read)
        (hcalms.lookupParent hne hleased revokeTree false)
    refine ((hlookup.mapError _).lax hw₂).bind ?_
    rintro (_ | parent) w₃ ⟨hw₃, -⟩
    · trivial
    refine ((hcalms.namespaceByID _).lax hw₃).bind ?_
    rintro _ w₄ ⟨hw₄, -⟩
    refine ((hreads.saltID _).lax hw₄).bind ?_
    rintro _ w₅ ⟨hw₅, rfl⟩
    refine finishes_mapError.mpr ?_
    intro w₆ hw₆ answer w₇ hstep
    obtain ⟨now, rfl, rfl⟩ := healthyStep_iff.mp hstep
    have hbefore := (hw₆.1 hw₅).1
    have hparents : deletePath w₆.state.parents (.below ⟨entry.parent⟩ ⟨entry.id⟩) ++
        [(⟨entry.parent⟩, ⟨entry.id⟩)] = indexed s entry := by
      rcases hbefore.index with hsame | hsame
      · rw [hsame]
        rfl
      · rw [hsame]
        exact indexed_again
    have hafter := hbefore.putIndex
    simp only [effect, created, hparents]
    exact ⟨.inr ⟨hbefore, false, hafter⟩, hafter, rfl⟩
  refine hindex.bind ?_
  rintro _ w₃ ⟨hw₃, hlinked⟩
  refine finishes_mapError.mpr ?_
  intro w₄ hw₄ answer w₅ hstep
  obtain ⟨now, rfl, rfl⟩ := healthyStep_iff.mp hstep
  obtain ⟨hbefore, hparents⟩ := hw₄.1 hw₃
  have hafter := hbefore.putChild hne (hparents.trans hlinked)
  exact ⟨.inr ⟨hbefore, true, hafter⟩, trivial⟩

theorem creator_holds (hparent : entry.parent ≠ []) (userSelectedID : Bool) {w : World}
    (hw : Meanwhile s entry false w) :
    (contract s entry .creator).Holds (create revokeTree entry userSelectedID).run w := by
  have hcalms : Calms s entry (creatorLogic s entry) (Meanwhile s entry false) :=
    calms_creator
  have hreads := hcalms.reads
  have hget : Keeps (creatorLogic s entry)
      (Meanwhile s entry false) (Meanwhile s entry false) (fun cell => cell = none)
      (perform (.getEntry ⟨entry.id⟩)) := by
    refine hcalms.step calm_of_read ?_
    intro w now value hw hvalue
    exact (Except.ok.inj hvalue).symm.trans hw.child
  have hlookup : Keeps (creatorLogic s entry)
      (Meanwhile s entry false) (Meanwhile s entry false) (fun _ => True)
      (lookupInternal revokeTree entry.id true) := by
    refine (hreads.saltID _).bind ?_
    rintro _ rfl
    refine (hget.mapError _).bind ?_
    rintro _ rfl
    exact keeps_pure trivial
  have haccessor : Keeps (creatorLogic s entry)
      (Meanwhile s entry false) (Meanwhile s entry false) (fun _ => True)
      (createAccessor (created entry)) := by
    refine (hcalms.namespaceByID _).then fun _ => (hreads.saltID _).bind fun saltedID _ => ?_
    exact (hcalms.quiet calm_of_read).mapError _
  refine Ends.mono (finishes_create userSelectedID (hcalms.namespaceByID _) hlookup ?_
    (fun _ hw => creator_storeCommon hne hleased revokeTree hparent hw) hw) fun _ _ _ => trivial
  exact fun _ hw => (haccessor.lax hw).imp fun _ _ h => h.1

end creator

def ChildRevocable (s : TokenState) (entry : TokenEntry) : Prop :=
  (needsNoLease (created entry) ∨ s.leases ⟨entry.path, entry.saltedID⟩ ≠ none) ∧
    s.pending (.salted entry.saltedID) ≠ some true

theorem Meanwhile.removed {w w' : World} (h : Meanwhile s entry true w)
    (hchild : ChildRevocable s entry) (hwalked : Walked ⟨entry.parent⟩ w w') :
    w'.state.entries.find entry.saltedID = none := by
  obtain ⟨walk, hinv, hend, -, -, htokens⟩ := hwalked
  have hedge : (⟨entry.parent⟩, entry.saltedID) ∈ w.state.parents := by
    rw [h.linked rfl]
    exact List.mem_append_right _ (.head _)
  refine (htokens entry.saltedID).removed
    (hinv.all_passed hend (Relation.ReflTransGen.single hedge)) ⟨?_, ?_⟩
  · intro found hfound
    cases h.child.symm.trans hfound
    rw [h.leases]
    exact hchild.1
  · rw [h.pending]
    exact hchild.2

section revoker

variable {revokeTree : GoString → TokenM Unit} {fuel : Nat}

theorem revoker_loop (hleaf : LeafSound revokeTree) (hchild : ChildRevocable s entry)
    (hfuel : 2 * (s.parents.length + 1) + 1 ≤ fuel) {w : World}
    (hw : ∃ written, Meanwhile s entry written w) :
    Finishes (revokerLogic s entry) (revokeTreeLoop revokeTree fuel [⟨entry.parent⟩] []) w
      (fun _ w' => .putEntry (created entry) ∈ w'.log ∧
        w'.state.entries.find entry.saltedID = none)
      (fun _ _ => True) := by
  obtain ⟨fuel, rfl⟩ : ∃ n, fuel = n + 1 := ⟨fuel - 1, by omega⟩
  intro w₁ hw₁ answer w₂ hstep
  have hwritten : Meanwhile s entry true w₁ := by
    obtain ⟨written, hmeanwhile⟩ : ∃ written, Meanwhile s entry written w₁ := by
      rcases hw₁ with rfl | ⟨-, hw₁⟩
      · exact hw
      · exact hw₁
    cases hmeanwhile.logged.mp (hstep.2 rfl)
    exact hmeanwhile
  have hlength : 2 * w₁.state.parents.length + 1 ≤ fuel + 1 := by
    have hindexed : (indexed s entry).length ≤ s.parents.length + 1 := indexed_length
    rw [hwritten.linked rfl]
    omega
  have halone : Ends (revokerLogic s entry) (fun result w' =>
      outcomePost (fun _ w' => Walked ⟨entry.parent⟩ w₁ w') never result w' ∧
        .putEntry (created entry) ∈ w'.log)
      (revokeTreeLoop revokeTree (fuel + 1) [⟨entry.parent⟩] []).run w₁ := by
    refine Ends.alone ?_ ?_ (walked_start hleaf ⟨entry.parent⟩ hlength) (hwritten.logged.mpr rfl)
    · rintro w w' hlogged (rfl | ⟨hbefore, -⟩)
      · rfl
      · exact absurd (hbefore.logged.mp hlogged) (by simp)
    rintro op w answer w' hlogged ⟨hstep, -⟩
    obtain ⟨now, rfl, rfl⟩ := healthyStep_iff.mp hstep
    refine ⟨hstep, ⟨fun hbefore => ?_, .tail _⟩, .tail _ hlogged⟩
    exact absurd (hbefore.logged.mp hlogged) (by simp)
  have hrest := halone w₁ (.inl rfl) answer w₂ hstep
  refine ⟨hrest.1, Ends.mono hrest.2 ?_⟩
  rintro (e | _) w' ⟨hresult, hlogged⟩
  · trivial
  · exact ⟨hlogged, hwritten.removed hchild hresult⟩

theorem revoker_holds (hleaf : LeafSound revokeTree) (hne : entry.id ≠ entry.parent)
    (hleased : Leased s ⟨entry.parent⟩) (hchild : ChildRevocable s entry)
    (hfuel : 2 * (s.parents.length + 1) + 1 ≤ fuel) {w : World}
    (hw : ∃ written, Meanwhile s entry written w) :
    (contract s entry .revoker).Holds
      (revokeTreeInternal revokeTree fuel ⟨entry.parent⟩).run w := by
  have hcalms : Calms s entry (revokerLogic s entry) _ := calms_revoker
  have hrevoke : Finishes (revokerLogic s entry)
      (revokeTreeInternal revokeTree fuel ⟨entry.parent⟩) w
      (fun _ w' => .putEntry (created entry) ∈ w'.log ∧
        w'.state.entries.find entry.saltedID = none) (fun _ _ => True) := by
    refine ((hcalms.lookupParent hne hleased revokeTree true).lax hw).bind ?_
    rintro (_ | te) w₁ ⟨hw₁, -⟩
    · exact revoker_loop hleaf hchild hfuel hw₁
    · refine ((hcalms.namespaceByID _).lax hw₁).bind ?_
      rintro _ w₂ ⟨hw₂, -⟩
      exact revoker_loop hleaf hchild hfuel hw₂
  refine Ends.mono hrevoke ?_
  rintro (e | _) w' hpost hresult
  · cases hresult
  · exact hpost

end revoker

end meanwhile

/-- No child escapes the revocation of its parent if its entry is written before the children are
listed, nothing fails, and both tokens have their leases. -/
theorem no_child_escapes (s : TokenState) (entry : TokenEntry) (userSelectedID : Bool)
    (fuel depth : Nat) (schedule : List (Party × StepEnv)) (hparent : entry.parent ≠ [])
    (hne : entry.id ≠ entry.parent) (hnew : s.entries.find entry.saltedID = none)
    (hleased : Leased s ⟨entry.parent⟩) (hchild : ChildRevocable s entry) (hdepth : 1 ≤ depth)
    (hfuel : 2 * (s.parents.length + 1) + 1 ≤ fuel)
    (halong : Pool.Along machine (WrittenBeforeListed entry) schedule
      (startCalls s entry userSelectedID fuel depth))
    (hreturned : BothReturned
      (Pool.runSchedule machine schedule (startCalls s entry userSelectedID fuel depth))) :
    (Pool.runSchedule machine schedule
      (startCalls s entry userSelectedID fuel depth)).state.state.entries.find entry.saltedID =
        none := by
  have hstart : Meanwhile s entry false ⟨s, []⟩ :=
    ⟨rfl, rfl, .inl rfl, .inl rfl, by simp, hnew, by simp⟩
  have hleaf : LeafSound (revokeTree fuel depth) := by
    obtain ⟨fuel, rfl⟩ : ∃ n, fuel = n + 1 := ⟨fuel - 1, by omega⟩
    obtain ⟨depth, rfl⟩ : ∃ n, depth = n + 1 := ⟨depth - 1, by omega⟩
    exact leafSound_revokeTree fuel depth
  have hhonours : Honours (contract s entry) (startCalls s entry userSelectedID fuel depth) := by
    rintro (_ | _)
    · exact creator_holds hne hleased _ hparent userSelectedID hstart
    · exact revoker_holds hleaf hne hleased hchild hfuel ⟨false, hstart⟩
  have hcompatible : Compatible (contract s entry) := by
    constructor
    · rintro (_ | _) w
      · exact ⟨fun h => ⟨h, rfl⟩, fun h => h⟩
      · exact .inl rfl
    rintro (_ | _) (_ | _) hj w w' hguar
    · exact absurd rfl hj
    · exact hguar
    · exact hguar
    · exact absurd rfl hj
  have hstep : ∀ i env (c : Calls), WrittenBeforeListed entry i env c →
      ∀ op next, c.threads i = .call op next → (contract s entry i).outcomes op c.state
        (exec env op c.state).1 (exec env op c.state).2 := by
    rintro i env c ⟨hfails, hlisted⟩ op next hnext
    have hhealthy : healthyStep op c.state (exec env op c.state).1 (exec env op c.state).2 :=
      ⟨env, hfails, rfl⟩
    cases i with
    | creator => exact hhealthy
    | revoker =>
      refine ⟨hhealthy, ?_⟩
      rintro rfl
      rw [hnext] at hlisted
      exact hlisted rfl
  obtain ⟨hend, -⟩ := honours_runSchedule hcompatible (P := fun _ => True) (fun _ _ _ _ h => h)
    hstep schedule _ halong hhonours trivial
  have hrevoked := hend .revoker
  rw [hreturned.2] at hrevoked
  exact (hrevoked rfl).2

def leasedParent : TokenEntry where
  id := ofString "hvs.p"
  path := ofString "auth/token/create"
  cubbyholeID := ofString "p"
  id_ne_nil := by decide
  namespace_root := rootNamespaceID_root
  cubbyhole_ne_nil := by decide
  path_clean := createPath_clean

def newChild : TokenEntry where
  id := ofString "hvs.c"
  accessor := ofString "a"
  parent := ofString "hvs.p"
  path := ofString "auth/token/create"
  cubbyholeID := ofString "c"
  id_ne_nil := by decide
  namespace_root := rootNamespaceID_root
  cubbyhole_ne_nil := by decide
  path_clean := createPath_clean

def parentStore : TokenState where
  entries := TokenTable.empty.put leasedParent
  leases leaseID :=
    if leaseID.path = ofString "auth/token/create" then some ⟨leaseID.token.id, 10⟩ else none

def turns (i : Party) (count : Nat) : List (Party × StepEnv) :=
  List.replicate count (i, {})

def lateWrite : List (Party × StepEnv) :=
  turns .creator 14 ++ turns .revoker 26 ++ turns .creator 4

theorem child_escapes :
    (∀ move ∈ lateWrite, move.2.fails = false) ∧
      BothReturned
        (Pool.runSchedule machine lateWrite (startCalls parentStore newChild false 5 1)) ∧
      (Pool.runSchedule machine lateWrite
        (startCalls parentStore newChild false 5 1)).state.state.entries.find
          newChild.saltedID ≠ none ∧
      (Pool.runSchedule machine lateWrite
        (startCalls parentStore newChild false 5 1)).state.state.entries.find
          leasedParent.saltedID = none := by
  refine ⟨by decide, ⟨rfl, rfl⟩, by decide, rfl⟩

def earlyWrite : List (Party × StepEnv) :=
  turns .creator 18 ++ turns .revoker 51

theorem child_revoked :
    BothReturned (Pool.runSchedule machine earlyWrite (startCalls parentStore newChild false 5 1)) ∧
      (Pool.runSchedule machine earlyWrite
        (startCalls parentStore newChild false 5 1)).state.state.entries.find
          newChild.saltedID = none := by
  refine ⟨⟨rfl, rfl⟩, ?_⟩
  refine no_child_escapes parentStore newChild false 5 1 earlyWrite (by decide) (by decide) rfl ?_
    ⟨.inr (by decide), by decide⟩ le_rfl (by decide) (by decide) ⟨rfl, rfl⟩
  intro found hfound
  cases hfound
  exact .inr (by decide)

end VaultProofs.EscapedChildren
