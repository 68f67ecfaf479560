import VaultProofs.TokenLookups
import VaultProofs.TokenTidy

/-!
Calls that share the token store with a tidy: creations of tokens and writes to cubbyholes.
-/

namespace VaultProofs.CubbyholeMoves

open GoStrings ConcurrentPrograms ProgramOutcomes TokenEffects TokenStore TokenTidy
open VaultEffects (GoError)

def routeCubbyhole (te : TokenEntry) : TokenM CubbyholeKey :=
  if te.type ≠ .service ∧ te.type ≠ .ent then
    throw (errorf "cubbyhole operations are only supported by \"service\" or enterprise type tokens")
  else if te.namespaceID = rootNamespaceID ∧ isServiceToken te.id = false then do
    let saltedID ← saltID te.id
    return .salted saltedID
  else if te.cubbyholeID = [] then throw (errorf "empty cubbyhole id")
  else return .plain te.cubbyholeID

def handleWrite (key : CubbyholeKey) (path value : GoString) : TokenM Unit :=
  if path = [] then throw (errorf "missing path")
  else wrapErr "failed to write" (perform (.writeCubbyhole ⟨key, path, value⟩))

/-- What runs at the same time: the tidy, creations of tokens, and writes to cubbyholes of stored
tokens. -/
inductive Call where
  | tidy
  | create (entry : TokenEntry) (userSelectedID : Bool)
  | write (stored : TokenEntry) (path value : GoString)
  deriving DecidableEq

def Call.program (fuel depth : Nat) : Call → TokenM Unit
  | .tidy => do
      let _ ← doTidy (revokeTree fuel depth)
      return ()
  | .create entry userSelectedID => TokenStore.create (revokeTree fuel depth) entry userSelectedID
  | .write stored path value => do
      let key ← routeCubbyhole (upgraded stored)
      handleWrite key path value

def machine : Machine tokens StepEnv World where
  exec := exec
  access _ := .none

abbrev Calls (ι : Type) := Pool tokens ι World (Except GoError Unit)

def startCalls {ι : Type} (calls : ι → Call) (fuel depth : Nat) (s : TokenState) : Calls ι :=
  .start ⟨s, []⟩ fun i => ((calls i).program fuel depth).run

def cubbyholeKey (te : TokenEntry) : CubbyholeKey :=
  if isServiceToken te.id = false then .salted te.saltedID else .plain te.cubbyholeID

def Begun (w : World) : Prop := .listAccessors ∈ w.log

def Listed (w : World) : Prop := .listCubbyholes ∈ w.log

def LeaseFound (s : TokenState) : TokenOp → Prop
  | .loadLease leaseID => s.leases leaseID ≠ none
  | _ => True

/-- A cubbyhole is written by a stored token, and not between the two lists of the tidy. -/
def MayWrite (w : World) : Call → TokenOp → Prop
  | .write stored _ _, .writeCubbyhole _ => (Begun w → Listed w) ∧
      (w.state.entries.find stored.saltedID).map TokenEntry.cubbyholeID = some stored.cubbyholeID
  | _, _ => True

/-- The operations of the tidy do not fail, lookups meet no token without its lease, and
cubbyholes are written as `MayWrite` says. -/
def Undisturbed {ι : Type} (calls : ι → Call) (i : ι) (env : StepEnv) (c : Calls ι) : Prop :=
  match c.threads i with
  | .ret _ => True
  | .call op _ => (calls i = .tidy → env.fails = false) ∧ LeaseFound c.state.state op ∧
      MayWrite c.state (calls i) op

instance (w : World) : Decidable (Begun w) := inferInstanceAs (Decidable (_ ∈ _))

instance (w : World) : Decidable (Listed w) := inferInstanceAs (Decidable (_ ∈ _))

instance (s : TokenState) (op : TokenOp) : Decidable (LeaseFound s op) := by
  unfold LeaseFound
  split <;> infer_instance

instance (w : World) (call : Call) (op : TokenOp) : Decidable (MayWrite w call op) := by
  unfold MayWrite
  split <;> infer_instance

instance {ι : Type} (calls : ι → Call) (i : ι) (env : StepEnv) (c : Calls ι) :
    Decidable (Undisturbed calls i env c) := by
  unfold Undisturbed
  split <;> infer_instance

structure Alike (a b : TokenEntry) : Prop where
  id : b.id = a.id
  accessor : b.accessor = a.accessor
  cubbyholeID : b.cubbyholeID = a.cubbyholeID

theorem Alike.refl (a : TokenEntry) : Alike a a := ⟨rfl, rfl, rfl⟩

variable {a b : TokenEntry}

theorem Alike.symm (h : Alike a b) : Alike b a :=
  ⟨h.id.symm, h.accessor.symm, h.cubbyholeID.symm⟩

theorem Alike.trans {a b c : TokenEntry} (hab : Alike a b) (hbc : Alike b c) : Alike a c :=
  ⟨hbc.id.trans hab.id, hbc.accessor.trans hab.accessor, hbc.cubbyholeID.trans hab.cubbyholeID⟩

theorem Alike.saltedID (h : Alike a b) : b.saltedID = a.saltedID :=
  congrArg SaltedID.mk h.id

theorem Alike.cubbyholeKey (h : Alike a b) : cubbyholeKey b = cubbyholeKey a := by
  simp only [CubbyholeMoves.cubbyholeKey, h.id, h.saltedID, h.cubbyholeID]

theorem alike_upgraded (stored : TokenEntry) : Alike stored (upgraded stored) := ⟨rfl, rfl, rfl⟩

def tokenOf : AccessorRecord → GoString
  | .entry tokenID _ _ => tokenID
  | .plain tokenID => tokenID

section lookup

variable {α β : Type} [DecidableEq α]

theorem lookup_filter_ne (l : List (α × β)) {key key' : α} (hne : key' ≠ key) :
    (l.filter fun a => a.1 ≠ key).lookup key' = l.lookup key' := by
  induction l with
  | nil => rfl
  | cons head rest ih =>
    obtain ⟨k, v⟩ := head
    by_cases hk : k = key
    · subst hk
      have hbeq : (key' == k) = false := beq_eq_false_iff_ne.mpr hne
      rw [List.filter_cons_of_neg (by simp), ih]
      simp only [List.lookup_cons, hbeq]
    · rw [List.filter_cons_of_pos (by simpa using hk)]
      simp only [List.lookup_cons, ih]

theorem mem_of_lookup {l : List (α × β)} {key : α} {value : β} (h : l.lookup key = some value) :
    key ∈ l.map Prod.fst := by
  obtain ⟨first, last, rfl, -⟩ := List.lookup_eq_some_iff.mp h
  simp

end lookup

variable (known : TokenEntry → Prop)

/-- The store while it is used properly: its entries are those of known tokens, owners of cubbyholes
are stored, and until the accessors are listed every token has its accessor. -/
structure Sound (w : World) : Prop where
  entries : ∀ key e, w.state.entries.find key = some e → ∃ te, known te ∧ Alike te e
  owned : ∀ item ∈ w.state.cubbyholes, ∀ te, known te → cubbyholeKey te = item.key →
    w.state.entries.find te.saltedID ≠ none
  accessors : ¬ Begun w → ∀ key e, w.state.entries.find key = some e →
    ∃ record, w.state.accessors.lookup ⟨e.accessor⟩ = some record ∧ tokenOf record = e.id

/-- The items of known tokens are still there, or have been written again. -/
structure KeepsData (w w' : World) : Prop where
  log : w.log ⊆ w'.log
  items : ∀ item ∈ w.state.cubbyholes, (∃ te, known te ∧ cubbyholeKey te = item.key) →
    ∃ item' ∈ w'.state.cubbyholes, item'.key = item.key ∧ item'.path = item.path ∧
      (item' = item ∨ .writeCubbyhole item' ∈ w'.log)

structure OthersMove (w w' : World) : Prop where
  sound : Sound known w → Sound known w'
  entries : ∀ key e, w.state.entries.find key = some e →
    ∃ e', w'.state.entries.find key = some e' ∧ Alike e e'
  accessors : ∀ key e, w.state.entries.find key = some e →
    w'.state.accessors.lookup ⟨e.accessor⟩ = w.state.accessors.lookup ⟨e.accessor⟩
  begun : Begun w' ↔ Begun w
  listed : Listed w' ↔ Listed w
  data : Begun w → ¬ Listed w → ∀ item ∈ w'.state.cubbyholes, item ∈ w.state.cubbyholes

structure Spares (te : TokenEntry) (w w' : World) : Prop where
  sound : Sound known w → Sound known w'
  entries : ∀ key e, w.state.entries.find key = some e →
    ∃ e', w'.state.entries.find key = some e' ∧ Alike e e'
  absent : w.state.entries.find te.saltedID = none → w'.state.entries.find te.saltedID = none
  begun : Begun w → Begun w'
  accessor : ¬ Begun w' →
    w'.state.accessors.lookup ⟨te.accessor⟩ = w.state.accessors.lookup ⟨te.accessor⟩

structure Quiet (w w' : World) : Prop where
  entries : ∀ key e, w.state.entries.find key = some e →
    ∃ e', w'.state.entries.find key = some e' ∧ Alike e e'
  absent : ∀ key, w.state.entries.find key = none → w'.state.entries.find key = none
  accessors : w'.state.accessors = w.state.accessors
  cubbyholes : w'.state.cubbyholes = w.state.cubbyholes
  begun : Begun w' ↔ Begun w
  listed : Listed w' ↔ Listed w
  log : w.log ⊆ w'.log

variable {known} {w w' : World}

theorem Quiet.stored (h : Quiet w w') {key : SaltedID} {e' : TokenEntry}
    (hfind : w'.state.entries.find key = some e') :
    ∃ e, w.state.entries.find key = some e ∧ Alike e e' := by
  cases hbefore : w.state.entries.find key with
  | none =>
    rw [h.absent key hbefore] at hfind
    cases hfind
  | some e =>
    obtain ⟨e'', hafter, halike⟩ := h.entries key e hbefore
    cases hfind.symm.trans hafter
    exact ⟨e, rfl, halike⟩

theorem Quiet.sound (h : Quiet w w') (hw : Sound known w) : Sound known w' where
  entries key e' hfind := by
    obtain ⟨e, hbefore, halike⟩ := h.stored hfind
    obtain ⟨te, hte, hknown⟩ := hw.entries key e hbefore
    exact ⟨te, hte, hknown.trans halike⟩
  owned item hitem te hte hkey := by
    rw [h.cubbyholes] at hitem
    obtain ⟨e, hfind⟩ := Option.ne_none_iff_exists'.mp (hw.owned item hitem te hte hkey)
    obtain ⟨e', hafter, -⟩ := h.entries _ e hfind
    rw [hafter]
    exact Option.some_ne_none e'
  accessors hbegun key e' hfind := by
    obtain ⟨e, hbefore, halike⟩ := h.stored hfind
    rw [h.accessors, halike.accessor, halike.id]
    exact hw.accessors (fun hb => hbegun (h.begun.mpr hb)) key e hbefore

theorem Quiet.othersMove (h : Quiet w w') : OthersMove known w w' where
  sound := h.sound
  entries := h.entries
  accessors _ _ _ := by rw [h.accessors]
  begun := h.begun
  listed := h.listed
  data _ _ item hitem := h.cubbyholes ▸ hitem

theorem Quiet.spares (h : Quiet w w') (te : TokenEntry) : Spares known te w w' where
  sound := h.sound
  entries := h.entries
  absent := h.absent _
  begun := h.begun.mpr
  accessor _ := by rw [h.accessors]

theorem Quiet.keepsData (h : Quiet w w') : KeepsData known w w' where
  log := h.log
  items item hitem _ := ⟨item, h.cubbyholes.symm ▸ hitem, rfl, rfl, .inl rfl⟩

theorem othersMove_trans {a b c : World} (hab : OthersMove known a b)
    (hbc : OthersMove known b c) : OthersMove known a c where
  sound h := hbc.sound (hab.sound h)
  entries key e hfind := by
    obtain ⟨e', hfind', hab'⟩ := hab.entries key e hfind
    obtain ⟨e'', hfind'', hbc'⟩ := hbc.entries key e' hfind'
    exact ⟨e'', hfind'', hab'.trans hbc'⟩
  accessors key e hfind := by
    obtain ⟨e', hfind', halike⟩ := hab.entries key e hfind
    rw [← hab.accessors key e hfind, ← halike.accessor]
    exact hbc.accessors key e' hfind'
  begun := hbc.begun.trans hab.begun
  listed := hbc.listed.trans hab.listed
  data hbegun hlisted item hitem :=
    hab.data hbegun hlisted item (hbc.data (hab.begun.mpr hbegun)
      (fun h => hlisted (hab.listed.mp h)) item hitem)

theorem spares_trans {te : TokenEntry} {a b c : World} (hab : Spares known te a b)
    (hbc : Spares known te b c) : Spares known te a c where
  sound h := hbc.sound (hab.sound h)
  entries key e hfind := by
    obtain ⟨e', hfind', hab'⟩ := hab.entries key e hfind
    obtain ⟨e'', hfind'', hbc'⟩ := hbc.entries key e' hfind'
    exact ⟨e'', hfind'', hab'.trans hbc'⟩
  absent h := hbc.absent (hab.absent h)
  begun h := hbc.begun (hab.begun h)
  accessor hbegun := (hbc.accessor hbegun).trans (hab.accessor fun h => hbegun (hbc.begun h))

theorem Quiet.refl (w : World) : Quiet w w where
  entries _ e hfind := ⟨e, hfind, Alike.refl e⟩
  absent _ h := h
  accessors := rfl
  cubbyholes := rfl
  begun := Iff.rfl
  listed := Iff.rfl
  log := List.Subset.refl _

/-- The operations that touch neither entries nor accessors nor cubbyholes. -/
def Passive (op : TokenOp) : Prop :=
  op ≠ .listAccessors ∧ op ≠ .listCubbyholes ∧ ∀ now s,
    (effect now op s).2.entries = s.entries ∧ (effect now op s).2.accessors = s.accessors ∧
      (effect now op s).2.cubbyholes = s.cubbyholes

section log

variable {op : TokenOp} {state : TokenState}

theorem begun_cons (hop : op ≠ .listAccessors) :
    Begun ⟨state, op :: w.log⟩ ↔ Begun w := by
  rw [Begun, Begun, List.mem_cons, or_iff_right hop.symm]

theorem listed_cons (hop : op ≠ .listCubbyholes) :
    Listed ⟨state, op :: w.log⟩ ↔ Listed w := by
  rw [Listed, Listed, List.mem_cons, or_iff_right hop.symm]

theorem keepsData_cons (hdata : state.cubbyholes = w.state.cubbyholes) :
    KeepsData known w ⟨state, op :: w.log⟩ :=
  ⟨List.subset_cons_self _ _, fun item hitem _ => ⟨item, hdata ▸ hitem, rfl, rfl, .inl rfl⟩⟩

theorem entries_same (key : SaltedID) (e : TokenEntry) (hfind : w.state.entries.find key = some e) :
    ∃ e', w.state.entries.find key = some e' ∧ Alike e e' :=
  ⟨e, hfind, Alike.refl e⟩

variable (haccessors : op ≠ .listAccessors) (hcubbyholes : op ≠ .listCubbyholes)

include haccessors hcubbyholes

theorem quiet_log
    (hentries : ∀ key e, w.state.entries.find key = some e →
      ∃ e', state.entries.find key = some e' ∧ Alike e e')
    (habsent : ∀ key, w.state.entries.find key = none → state.entries.find key = none)
    (hsame : state.accessors = w.state.accessors)
    (hdata : state.cubbyholes = w.state.cubbyholes) : Quiet w ⟨state, op :: w.log⟩ where
  entries := hentries
  absent := habsent
  accessors := hsame
  cubbyholes := hdata
  begun := begun_cons haccessors
  listed := listed_cons hcubbyholes
  log := List.subset_cons_self _ _

theorem quiet_failed : Quiet w ⟨w.state, op :: w.log⟩ :=
  quiet_log haccessors hcubbyholes entries_same (fun _ h => h) rfl rfl

end log

theorem quiet_of_passive {op : TokenOp} {answer : op.Answer} (hstep : anyStep op w answer w')
    (hop : Passive op := by simp [Passive, effect]) : Quiet w w' := by
  obtain ⟨haccessors, hcubbyholes, heffect⟩ := hop
  rcases anyStep_cases hstep with ⟨-, rfl⟩ | ⟨now, -, rfl⟩
  · exact quiet_failed haccessors hcubbyholes
  obtain ⟨hentries, hsame, hdata⟩ := heffect now w.state
  refine quiet_log haccessors hcubbyholes ?_ ?_ hsame hdata
  · rw [hentries]
    exact entries_same
  · rw [hentries]
    exact fun _ h => h

theorem quiet_put {e e' : TokenEntry} (hfind : w.state.entries.find e'.saltedID = some e)
    (halike : Alike e e') :
    Quiet w ⟨{ w.state with entries := w.state.entries.put e' }, .putEntry e' :: w.log⟩ := by
  refine quiet_log nofun nofun ?_ ?_ rfl rfl
  · intro key found hfound
    by_cases hkey : key = e'.saltedID
    · subst hkey
      cases hfind.symm.trans hfound
      exact ⟨e', TokenTable.find_put_self _ _, halike⟩
    · exact ⟨found, (TokenTable.find_put_of_ne _ hkey).trans hfound, Alike.refl found⟩
  intro key hnone
  by_cases hkey : key = e'.saltedID
  · subst hkey
    cases hfind.symm.trans hnone
  · exact (TokenTable.find_put_of_ne _ hkey).trans hnone

theorem quiet_put_step {e e' : TokenEntry} (hfind : w.state.entries.find e'.saltedID = some e)
    (halike : Alike e e') {answer : Except GoError Unit}
    (hstep : anyStep (.putEntry e') w answer w') : Quiet w w' := by
  rcases anyStep_cases hstep with ⟨-, rfl⟩ | ⟨now, -, rfl⟩
  · exact quiet_failed nofun nofun
  · exact quiet_put hfind halike

end VaultProofs.CubbyholeMoves
