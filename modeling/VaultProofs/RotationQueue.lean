import VaultProofs.GoTimes
import VaultProofs.KeyedLists
import VaultProofs.VaultEffects

/-!
The queue of the static roles of a database: the role that is due first is taken from it and has to
be put back.
-/

namespace VaultProofs.RotationQueue

open GoStrings GoTimes KeyedLists
open VaultEffects (GoError)

/-- A waiting role, with the ID of its WAL entry or the empty text. -/
structure Item where
  key : GoString
  value : GoString
  priority : Int

/-- The items of the heap, which are those of the map by key. -/
structure PriorityQueue where
  data : Table Item.key
  named : ∀ item ∈ data.rows, item.key ≠ []

namespace PriorityQueue

variable {pq rest : PriorityQueue} {item : Item} {name : GoString}

def pop (pq : PriorityQueue) : Option (Item × PriorityQueue) :=
  let least := pq.data.rows.find? fun item =>
    pq.data.rows.all fun other => item.priority ≤ other.priority
  least.map fun item =>
    (item, ⟨pq.data.erase item.key, fun other h => pq.named other (List.mem_of_mem_filter h)⟩)

theorem named_upsert (pq : PriorityQueue) (h : item.key ≠ []) :
    ∀ other ∈ (pq.data.upsert item).rows, other.key ≠ [] := by
  intro other hother
  rcases mem_upsert hother with rfl | hmem
  · exact h
  · exact pq.named other hmem

def push (pq : PriorityQueue) (item : Item) : Except GoError PriorityQueue :=
  if h : item.key = [] then
    .error (.message (ofString "error adding item: Item Key is required"))
  else if (pq.data.find item.key).isSome then .error (.message (ofString "duplicate item"))
  else .ok ⟨pq.data.upsert item, pq.named_upsert h⟩

def Waits (pq : PriorityQueue) (name : GoString) : Prop :=
  (pq.data.find name).isSome

theorem waits_of_pop (h : pq.pop = some (item, rest)) : pq.Waits item.key ∧ item.key ≠ [] := by
  obtain ⟨found, hfound, heq⟩ := Option.map_eq_some_iff.mp h
  obtain rfl : found = item := (Prod.mk.inj heq).1
  have hmem := List.mem_of_find?_eq_some hfound
  exact ⟨Option.isSome_of_eq_some (Table.find_key_iff.mpr hmem), pq.named found hmem⟩

theorem waits_pop_iff (h : pq.pop = some (item, rest)) :
    rest.Waits name ↔ pq.Waits name ∧ name ≠ item.key := by
  obtain ⟨found, hfound, heq⟩ := Option.map_eq_some_iff.mp h
  obtain ⟨rfl, rfl⟩ := Prod.mk.inj heq
  rw [Waits, Waits, Table.find_erase]
  by_cases hname : name = found.key
  · simp [hname]
  · simp [hname]

theorem push_popped (h : pq.pop = some (item, rest)) (value : GoString) (priority : Int) :
    ∃ after, rest.push ⟨item.key, value, priority⟩ = .ok after ∧
      ∀ name, after.Waits name ↔ pq.Waits name := by
  have hout : ¬ (rest.data.find item.key).isSome := fun hin =>
    ((waits_pop_iff h).mp hin).2 rfl
  obtain ⟨hwaits, hkey⟩ := waits_of_pop h
  refine ⟨_, (dif_neg hkey).trans (if_neg hout), fun name => ?_⟩
  rw [Waits, Table.find_upsert]
  by_cases hname : item.key = name
  · rw [if_pos hname, ← hname]
    exact iff_of_true rfl hwaits
  · rw [if_neg hname]
    exact (waits_pop_iff h).trans (and_iff_left (Ne.symm hname))

end PriorityQueue

/-- When the credential of a static role is rotated; `next` is the next time of the schedule. -/
structure StaticAccount where
  nextVaultRotation : Int
  rotationPeriod : Span
  rotationSchedule : GoString
  rotationWindow : Span
  next : Int → Int

namespace StaticAccount

def usesRotationPeriod (s : StaticAccount) : Bool :=
  s.rotationPeriod ≠ 0 ∧ s.rotationSchedule = []

def usesRotationSchedule (s : StaticAccount) : Bool :=
  s.rotationSchedule ≠ [] ∧ s.rotationPeriod = 0

def nextRotationTimeFromInput (s : StaticAccount) (input : Int) : Int :=
  if s.usesRotationPeriod then add input s.rotationPeriod else s.next input

def isInsideRotationWindow (s : StaticAccount) (t : Int) : Bool :=
  if s.usesRotationSchedule = true ∧ s.rotationWindow ≠ 0 then
    t < add s.nextVaultRotation s.rotationWindow
  else true

def shouldRotate (s : StaticAccount) (priority t : Int) : Bool :=
  priority ≤ t / second ∧ s.isInsideRotationWindow t

def setNextVaultRotation (s : StaticAccount) (t : Int) : StaticAccount :=
  { s with nextVaultRotation := s.nextRotationTimeFromInput t }

end StaticAccount

/-- What a call meets: the answers of storage and of the rotation, which on an error may leave a WAL
entry and otherwise says when it was done, and the time at two moments. -/
structure Answers where
  cancelled : Bool
  staticRole : GoString → Except GoError (Option StaticAccount)
  storeStaticRole : GoString → StaticAccount → Option GoError
  setStaticAccount : GoString → StaticAccount → GoString → Except (GoError × GoString) (Option Int)
  now : Int
  later : Int

def pushItem (pq : PriorityQueue) (item : Item) : PriorityQueue :=
  match pq.push item with
  | .error _ => pq
  | .ok pq => pq

def backOff (a : Answers) : Int :=
  (a.later + 10 * second) / second

/-- The queue after one attempt, and whether to go on with the next item. -/
def rotateCredential (a : Answers) (pq : PriorityQueue) : Bool × PriorityQueue :=
  if a.cancelled then (false, pq)
  else
    match pq.pop with
    | none => (false, pq)
    | some (item, rest) =>
      match a.staticRole item.key with
      | .error _ => (true, pushItem rest { item with priority := backOff a })
      | .ok none => (true, rest)
      | .ok (some role) =>
        if role.shouldRotate item.priority a.now then
          match a.setStaticAccount item.key role item.value with
          | .error (_, walID) =>
            let value := if walID = [] then item.value else walID
            (true, pushItem rest { item with value, priority := backOff a })
          | .ok rotationTime =>
            let lvr := rotationTime.getD a.later
            let priority := role.nextRotationTimeFromInput lvr / second
            (true, pushItem rest { item with value := [], priority })
        else if role.isInsideRotationWindow a.now then (false, pushItem rest item)
        else
          match a.storeStaticRole item.key (role.setNextVaultRotation a.now) with
          | some _ => (false, rest)
          | none =>
            let priority := role.nextRotationTimeFromInput a.now / second
            (false, pushItem rest { item with priority })

/-- The same roles wait as before, but for roles that do not exist any more. -/
def Kept (a : Answers) (pq : PriorityQueue) : Prop :=
  (∀ name, (rotateCredential a pq).2.Waits name → pq.Waits name) ∧
    ∀ name, pq.Waits name →
      (rotateCredential a pq).2.Waits name ∨ a.staticRole name = .ok none

/-- The role that is due first is outside of its rotation window, and its next rotation cannot be
stored. -/
def Dropped (a : Answers) (pq : PriorityQueue) : Prop :=
  a.cancelled = false ∧ ∃ item rest role, pq.pop = some (item, rest) ∧
    a.staticRole item.key = .ok (some role) ∧ role.isInsideRotationWindow a.now = false ∧
    (a.storeStaticRole item.key (role.setNextVaultRotation a.now)).isSome

variable {a : Answers} {pq rest : PriorityQueue} {item : Item}

theorem waits_pushItem (h : pq.pop = some (item, rest)) (value : GoString) (priority : Int)
    (name : GoString) :
    (pushItem rest ⟨item.key, value, priority⟩).Waits name ↔ pq.Waits name := by
  obtain ⟨after, hpush, hwaits⟩ := PriorityQueue.push_popped h value priority
  rw [pushItem, hpush]
  exact hwaits name

theorem kept_of_waits (h : ∀ name, (rotateCredential a pq).2.Waits name ↔ pq.Waits name) :
    Kept a pq :=
  ⟨fun name => (h name).mp, fun name hwaits => .inl ((h name).mpr hwaits)⟩

theorem rotateCredential_cases (hgo : a.cancelled = false) (h : pq.pop = some (item, rest)) :
    (∃ value priority, (rotateCredential a pq).2 = pushItem rest ⟨item.key, value, priority⟩) ∧
        ¬ Dropped a pq ∨
      (rotateCredential a pq).2 = rest ∧ (a.staticRole item.key = .ok none ∨ Dropped a pq) := by
  have hdropped : Dropped a pq → ∃ role, a.staticRole item.key = .ok (some role) ∧
      role.isInsideRotationWindow a.now = false ∧
      (a.storeStaticRole item.key (role.setNextVaultRotation a.now)).isSome := by
    rintro ⟨-, item', rest', role, hpop, hrest⟩
    rw [h, Option.some_inj] at hpop
    cases hpop
    exact ⟨role, hrest⟩
  rw [rotateCredential, hgo, h]
  dsimp only
  cases hrole : a.staticRole item.key with
  | error err =>
    refine .inl ⟨⟨_, _, rfl⟩, fun hd => ?_⟩
    obtain ⟨role, heq, -⟩ := hdropped hd
    cases hrole.symm.trans heq
  | ok found =>
    cases found with
    | none => exact .inr ⟨rfl, .inl rfl⟩
    | some role =>
      have hrole' : Dropped a pq → role.isInsideRotationWindow a.now = false ∧
          (a.storeStaticRole item.key (role.setNextVaultRotation a.now)).isSome := by
        intro hd
        obtain ⟨role', heq, hrest⟩ := hdropped hd
        cases hrole.symm.trans heq
        exact hrest
      dsimp only
      by_cases hrotate : role.shouldRotate item.priority a.now = true
      · rw [if_pos hrotate]
        have hinside : ¬ Dropped a pq := fun hd => by
          rw [StaticAccount.shouldRotate, (hrole' hd).1] at hrotate
          simp at hrotate
        cases a.setStaticAccount item.key role item.value with
        | error failed | ok time => exact .inl ⟨⟨_, _, rfl⟩, hinside⟩
      rw [if_neg hrotate]
      by_cases hinside : role.isInsideRotationWindow a.now = true
      · rw [if_pos hinside]
        exact .inl ⟨⟨_, _, rfl⟩, fun hd => by simpa [hinside] using (hrole' hd).1⟩
      rw [if_neg hinside]
      cases hstore : a.storeStaticRole item.key (role.setNextVaultRotation a.now) with
      | some err =>
        refine .inr ⟨rfl, .inr ⟨hgo, item, rest, role, h, hrole, ?_, ?_⟩⟩
        · exact Bool.eq_false_iff.mpr hinside
        · rw [hstore]
          rfl
      | none => exact .inl ⟨⟨_, _, rfl⟩, fun hd => by simpa [hstore] using (hrole' hd).2⟩

/-- No role is lost by an attempt iff the next rotation of the role can be stored when it has to
be. -/
theorem roles_stay_scheduled_iff (a : Answers) (pq : PriorityQueue) :
    Kept a pq ↔ ¬ Dropped a pq := by
  cases hgo : a.cancelled with
  | true =>
    have hsame : (rotateCredential a pq).2 = pq := by rw [rotateCredential, hgo]; rfl
    refine iff_of_true (kept_of_waits fun name => by rw [hsame]) ?_
    rintro ⟨hfalse, -⟩
    cases hgo.symm.trans hfalse
  | false =>
    cases hpop : pq.pop with
    | none =>
      have hsame : (rotateCredential a pq).2 = pq := by
        rw [rotateCredential, hgo, hpop]
        rfl
      refine iff_of_true (kept_of_waits fun name => by rw [hsame]) ?_
      rintro ⟨-, item, rest, role, h, -⟩
      rw [hpop] at h
      cases h
    | some taken =>
      obtain ⟨item, rest⟩ := taken
      have hout : ¬ rest.Waits item.key := fun hin =>
        ((PriorityQueue.waits_pop_iff hpop).mp hin).2 rfl
      rcases rotateCredential_cases hgo hpop with ⟨⟨value, priority, hafter⟩, hnot⟩ |
        ⟨hafter, hgone⟩
      · refine iff_of_true (kept_of_waits fun name => ?_) hnot
        rw [hafter]
        exact waits_pushItem hpop value priority name
      have hless : ∀ name, rest.Waits name → pq.Waits name := fun name h =>
        ((PriorityQueue.waits_pop_iff hpop).mp h).1
      rw [Kept, hafter]
      constructor
      · rintro ⟨-, hall⟩ ⟨-, item', rest', role, hpop', hrole, -⟩
        rw [hpop, Option.some_inj] at hpop'
        cases hpop'
        rcases hall _ (PriorityQueue.waits_of_pop hpop).1 with hin | hnone
        · exact hout hin
        · rw [hrole] at hnone
          cases hnone
      intro hnot
      refine ⟨hless, fun name hwaits => ?_⟩
      by_cases hname : name = item.key
      · exact .inr (hname ▸ hgone.resolve_right hnot)
      · exact .inl ((PriorityQueue.waits_pop_iff hpop).mpr ⟨hwaits, hname⟩)

def lateRole : StaticAccount :=
  ⟨0, 0, ofString "0 0 * * *", 60000000000, fun t => t + 86400 * second⟩

def readOnly : Answers where
  cancelled := false
  staticRole := fun _ => .ok (some lateRole)
  storeStaticRole := fun _ _ => some (.message (ofString "read-only storage"))
  setStaticAccount := fun _ _ _ => .ok none
  now := 3600 * second
  later := 3600 * second

def oneWaiting : PriorityQueue :=
  ⟨⟨[⟨ofString "app", [], 0⟩], List.nodup_singleton _⟩, by decide⟩

theorem failed_store_drops_role :
    oneWaiting.Waits (ofString "app") ∧
      ¬ (rotateCredential readOnly oneWaiting).2.Waits (ofString "app") ∧
      ¬ Kept readOnly oneWaiting := by
  have hwaits : oneWaiting.Waits (ofString "app") := rfl
  have hlost : ¬ (rotateCredential readOnly oneWaiting).2.Waits (ofString "app") := by
    rw [PriorityQueue.Waits]
    decide
  refine ⟨hwaits, hlost, fun h => ?_⟩
  rcases h.2 (ofString "app") hwaits with hin | hnone
  · exact hlost hin
  · cases hnone

end VaultProofs.RotationQueue
