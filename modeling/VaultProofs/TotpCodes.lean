import Mathlib.Algebra.Group.Nat.Defs
import VaultProofs.GoStrings
import VaultProofs.GoTimes
import VaultProofs.RacingCalls

/-!
Calls of `validateTOTP` that take turns on the cache of used codes and attempt counters.
-/

namespace VaultProofs.TotpCodes

open GoStrings GoTimes RunHistories RacingCalls

structure TOTPSecret where
  period : UInt32
  skew : UInt32
  digits : Int32

structure Item (α : Type) where
  object : α
  expiration : Option Int

def Item.live {α : Type} (item : Item α) (now : Int) : Bool :=
  item.expiration.all (now ≤ ·)

/-- The cache: passcodes under their method, and counters under method and entity. -/
structure UsedCodes where
  now : Int
  codes : GoString × GoString → Option (Item Unit)
  attempts : GoString × GoString → Option (Item UInt32)

def UsedCodes.wait (s : UsedCodes) (elapsed : Nat) : UsedCodes where
  now := s.now + elapsed
  codes name := (s.codes name).filter (·.live (s.now + elapsed))
  attempts name := (s.attempts name).filter (·.live (s.now + elapsed))

/-- What `Set` and `Add` store; a duration that is not positive stands for no expiration. -/
def UsedCodes.item {α : Type} (s : UsedCodes) (object : α) (d : Int) : Item α :=
  ⟨object, if 0 < d then some (s.now + d) else none⟩

def put {α : Type} (items : GoString × GoString → Option α) (name : GoString × GoString)
    (item : Option α) : GoString × GoString → Option α :=
  fun n => if n = name then item else items n

inductive TotpError where
  | credentialsNotSupplied
  | noSecret
  | failedToValidate
  | maximumAttempts (attempts maximum : UInt32) (wait : Int)
  | failedToIncrement
  | fetchingKey
  | emptyKey
  | addingCode
  deriving DecidableEq

inductive Stage where
  | getUsed
  | getAttempts
  | setAttempts
  | increment
  | compare
  | add (comparedAt : Int)
  | delete (comparedAt : Int)
  | accepted (comparedAt : Int)
  | refused (error : TotpError)
  deriving DecidableEq

structure Call where
  passcode : GoString
  secret : TOTPSecret
  configID : GoString
  entityID : GoString
  maximumValidationAttempts : UInt32
  /-- The codes of the key by time step, or why there is no key. -/
  key : Except TotpError (Int → GoString)
  stage : Stage

def Call.usedName (c : Call) : GoString × GoString := (c.configID, c.passcode)

def Call.rateLimitID (c : Call) : GoString × GoString := (c.configID, c.entityID)

/-- The call up to its first operation on the cache. -/
def validateTOTP (mfaFactors : Option GoString) (totpSecret : Option TOTPSecret)
    (configID entityID : GoString) (maximumValidationAttempts : UInt32)
    (key : Except TotpError (Int → GoString)) : Except TotpError Call :=
  match mfaFactors, totpSecret with
  | none, _ | some [], _ => .error .credentialsNotSupplied
  | _, none => .error .noSecret
  | some passcode, some secret =>
    if passcode.length ≠ secret.digits.toInt then .error .failedToValidate
    else .ok ⟨passcode, secret, configID, entityID, maximumValidationAttempts, key, .getUsed⟩

/-- A number of periods as a duration, which is an `int64`. -/
def TOTPSecret.duration (secret : TOTPSecret) (n : Nat) : Int :=
  (second * secret.period.toNat * n).bmod (2 ^ 64)

def TOTPSecret.passcodeTTL (secret : TOTPSecret) : Int :=
  secret.duration 1

def TOTPSecret.validityPeriod (secret : TOTPSecret) : Int :=
  secret.duration ((2 + secret.skew.toNat) % 2 ^ 32)

/-- The instant is within `skew` steps of the time step. -/
def TOTPSecret.Within (secret : TOTPSecret) (timeStep now : Int) : Prop :=
  timeStep ≤ now / (second * secret.period.toNat) + secret.skew.toNat ∧
    now / (second * secret.period.toNat) ≤ timeStep + secret.skew.toNat

instance (secret : TOTPSecret) (timeStep now : Int) : Decidable (secret.Within timeStep now) :=
  inferInstanceAs (Decidable (_ ∧ _))

/-- `ValidateCustom`: the passcode is the code of a time step within `skew` of the current one. -/
def Call.valid (c : Call) (code : Int → GoString) (now : Int) : Bool :=
  (List.range (2 * c.secret.skew.toNat + 1)).any fun n =>
    code (now / (second * c.secret.period.toNat) - c.secret.skew.toNat + n) == c.passcode

def Call.step (c : Call) (s : UsedCodes) : Stage × UsedCodes :=
  match c.stage with
  | .getUsed =>
    match s.codes c.usedName with
    | some _ => (.refused .failedToValidate, s)
    | none => (.getAttempts, s)
  | .getAttempts =>
    match s.attempts c.rateLimitID with
    | none => (.setAttempts, s)
    | some ⟨num, _⟩ =>
      if num = c.maximumValidationAttempts then
        (.refused (.maximumAttempts (num + 1) num c.secret.passcodeTTL), s)
      else (.increment, s)
  | .setAttempts =>
    (.compare, { s with attempts := put s.attempts c.rateLimitID
                                      (s.item (1 : UInt32) c.secret.passcodeTTL) })
  | .increment =>
    match s.attempts c.rateLimitID with
    | none => (.refused .failedToIncrement, s)
    | some ⟨num, expiration⟩ =>
      (.compare, { s with attempts := put s.attempts c.rateLimitID (some ⟨num + 1, expiration⟩) })
  | .compare =>
    match c.key with
    | .error error => (.refused error, s)
    | .ok code =>
      if c.valid code s.now then (.add s.now, s) else (.refused .failedToValidate, s)
  | .add comparedAt =>
    match s.codes c.usedName with
    | some _ => (.refused .addingCode, s)
    | none =>
      (.delete comparedAt,
        { s with codes := put s.codes c.usedName (s.item () c.secret.validityPeriod) })
  | .delete comparedAt =>
    (.accepted comparedAt, { s with attempts := put s.attempts c.rateLimitID none })
  | stage => (stage, s)

def Call.next (elapsed : Nat) (c : Call) (s : UsedCodes) : Call × UsedCodes :=
  let r := c.step (s.wait elapsed)
  ({ c with stage := r.1 }, r.2)

/-- When the passcode was compared, once it is accepted. -/
@[grind] def Stage.acceptedAt : Stage → Option Int
  | .delete comparedAt | .accepted comparedAt => some comparedAt
  | _ => none

def Call.AcceptedFor (c : Call) (timeStep : Int) : Prop :=
  ∃ comparedAt ∈ c.stage.acceptedAt, c.secret.Within timeStep comparedAt

theorem validityPeriod_eq {secret : TOTPSecret} (hskew : secret.skew ≤ 1)
    (hpos : 0 < secret.validityPeriod) :
    secret.validityPeriod = second * secret.period.toNat * (2 + secret.skew.toNat) := by
  have hperiod := secret.period.toNat_lt
  have hskew : secret.skew.toNat ≤ 1 := UInt32.le_iff_toNat_le.1 hskew
  simp only [TOTPSecret.validityPeriod, TOTPSecret.duration, second, Int.bmod] at hpos ⊢
  rcases Nat.le_one_iff_eq_zero_or_eq_one.1 hskew with hzero | hone
  · simp only [hzero] at hpos ⊢
    omega
  · simp only [hone] at hpos ⊢
    omega

theorem le_add_validityPeriod {secret : TOTPSecret} (hskew : secret.skew ≤ 1)
    (hpos : 0 < secret.validityPeriod) {timeStep t now : Int} (hnow : secret.Within timeStep now)
    (ht : secret.Within timeStep t) : t ≤ now + secret.validityPeriod := by
  have hvalidity := validityPeriod_eq hskew hpos
  rw [hvalidity] at hpos ⊢
  obtain ⟨-, ht⟩ := ht
  obtain ⟨hnow, -⟩ := hnow
  generalize second * (secret.period.toNat : Int) = d at *
  have hd : 0 < d := by
    refine Int.not_le.1 fun hd => ?_
    have hle := Int.mul_le_mul_of_nonneg_right hd (show 0 ≤ 2 + (secret.skew.toNat : Int) by omega)
    omega
  have hlast := Int.lt_mul_ediv_self_add (x := t) hd
  have hfirst := Int.mul_ediv_self_le (x := now) (Int.ne_of_gt hd)
  have hsteps := Int.mul_le_mul_of_nonneg_left
    (show t / d ≤ now / d + 2 * secret.skew.toNat by omega) (Int.le_of_lt hd)
  rcases Nat.le_one_iff_eq_zero_or_eq_one.1 (UInt32.le_iff_toNat_le.1 hskew) with hzero | hone
  · rw [hzero] at hsteps ⊢
    grind
  · rw [hone] at hsteps ⊢
    grind

theorem live_of_le {α : Type} {item : Item α} {t u : Int} (h : item.live t = true) (hle : u ≤ t) :
    item.live u = true := by
  obtain ⟨object, _ | expiration⟩ := item
  · rfl
  · simp [Item.live] at h ⊢
    omega

variable {s : Race UsedCodes Call}

/-- A used code is kept as long as it is valid. -/
structure SingleUse (s : Race UsedCodes Call) : Prop where
  compared : ∀ c ∈ s.calls, ∀ t, c.stage = .add t → t ≤ s.store.now
  kept : ∀ c ∈ s.calls, c.secret.skew ≤ 1 → ∀ timeStep, c.AcceptedFor timeStep →
    ∀ t, s.store.now ≤ t → c.secret.Within timeStep t →
      ∃ item, s.store.codes c.usedName = some item ∧ item.live t = true

theorem SingleUse.wait (h : SingleUse s) (elapsed : Nat) :
    SingleUse ⟨s.store.wait elapsed, s.calls⟩ := by
  constructor
  · intro c hc t ht
    have := h.compared c hc t ht
    simp only [UsedCodes.wait]
    omega
  · intro c hc hskew timeStep haccepted t hle hwithin
    simp only [UsedCodes.wait] at hle ⊢
    obtain ⟨item, hitem, hlive⟩ := h.kept c hc hskew timeStep haccepted t (by omega) hwithin
    exact ⟨item, by rw [hitem]; exact if_pos (live_of_le hlive hle), hlive⟩

theorem Call.step_cases (c : Call) (s : UsedCodes) :
    (c.step s).2.now = s.now ∧ (∀ t, (c.step s).1 = .add t → t = s.now) ∧
    ((c.step s).1.acceptedAt = c.stage.acceptedAt ∧ (c.step s).2.codes = s.codes ∨
      ∃ t, c.stage = .add t ∧ (c.step s).1 = .delete t ∧ s.codes c.usedName = none ∧
        (c.step s).2.codes = put s.codes c.usedName (s.item () c.secret.validityPeriod)) := by
  fun_cases Call.step c s <;> grind

theorem SingleUse.turn (h : SingleUse s) (e : Nat × Nat) : SingleUse (turn Call.next s e) := by
  refine turn_keeps (fun c hc => ?_) h
  obtain ⟨hcompared, hkept⟩ := h.wait e.2
  have hmem := List.mem_of_getElem? hc
  obtain ⟨hnow, hadd, hcases⟩ := c.step_cases (s.store.wait e.2)
  rw [Call.next]
  constructor
  · grind
  · intro d hd hskew timeStep haccepted u hu hwithin
    rw [hnow] at hu
    rcases hcases with ⟨hsame, hcodes⟩ | ⟨t, ht, hdelete, hnone, hcodes⟩
    · rw [hcodes]
      rcases List.mem_or_eq_of_mem_set hd with hd | rfl
      · exact hkept d hd hskew timeStep haccepted u hu hwithin
      · rw [Call.AcceptedFor, hsame] at haccepted
        exact hkept c hmem hskew timeStep haccepted u hu hwithin
    rw [hcodes]
    rcases List.mem_or_eq_of_mem_set hd with hd | rfl
    · obtain ⟨item, hitem, hlive⟩ := hkept d hd hskew timeStep haccepted u hu hwithin
      refine ⟨item, (if_neg fun hname => ?_).trans hitem, hlive⟩
      rw [hname, hnone] at hitem
      cases hitem
    refine ⟨_, if_pos rfl, ?_⟩
    obtain ⟨t', ht', hstep⟩ := haccepted
    rw [hdelete] at ht'
    cases ht'
    by_cases hpos : 0 < c.secret.validityPeriod
    · have hcovers : u ≤ t + c.secret.validityPeriod :=
        le_add_validityPeriod hskew hpos hstep hwithin
      have hle := hcompared c hmem t ht
      simp only [UsedCodes.item, if_pos hpos, Item.live, Option.all_some, decide_eq_true_eq]
      exact Int.le_trans hcovers (Int.add_le_add_right hle _)
    · rw [UsedCodes.item, if_neg hpos]
      rfl

/-- A passcode accepted for a time step is not accepted again while the step is current. -/
theorem passcode_accepted_once (hs : ∀ c ∈ s.calls, c.stage = .getUsed)
    {history : List (Nat × Nat)} {a : Call} (ha : a ∈ (final (turn Call.next) s history).calls)
    (hskew : a.secret.skew ≤ 1) {timeStep : Int} (haccepted : a.AcceptedFor timeStep)
    {b : Call} (hname : b.usedName = a.usedName) {elapsed : Nat}
    (hwithin : a.secret.Within timeStep
      ((final (turn Call.next) s history).store.now + elapsed)) :
    (b.next elapsed (final (turn Call.next) s history).store).1.stage.acceptedAt =
      b.stage.acceptedAt := by
  have hstart : SingleUse s := by
    constructor <;> grind [Call.AcceptedFor]
  have hend := final_induction (K := fun _ s => SingleUse s) hstart (fun _ e h => h.turn e) history
  obtain ⟨item, hitem, -⟩ := (hend.wait elapsed).kept a ha hskew timeStep haccepted _
    (Int.le_refl _) hwithin
  rcases (b.step_cases _).2.2 with ⟨hsame, -⟩ | ⟨-, -, -, hnone, -⟩
  · exact hsame
  · rw [hname, hitem] at hnone
    cases hnone

def sampleCall : Call :=
  ⟨[48, 48, 48, 48, 48, 48], ⟨30, 1, 6⟩, [1], [2], 1, .ok fun _ => [48, 48, 48, 48, 48, 48],
    .getUsed⟩

def sampleRace (n : Nat) : Race UsedCodes Call :=
  ⟨⟨0, fun _ => none, fun _ => none⟩, List.replicate n sampleCall⟩

theorem sampleCall_accepted_once :
    (sampleCall.next 0 (final (turn Call.next) (sampleRace 1)
      (List.replicate 6 (0, 0))).store).1.stage.acceptedAt = sampleCall.stage.acceptedAt := by
  refine passcode_accepted_once (by decide) (List.head_mem (by decide)) (by decide)
    (show Call.AcceptedFor _ 0 from ⟨0, ?_, ?_⟩) (by decide) ?_
  · decide
  · decide
  · decide

/-- The call has read its counter and has not compared its passcode yet. -/
@[grind] def Stage.counts : Stage → Bool
  | .setAttempts | .increment | .compare => true
  | _ => false

def UsedCodes.count (s : UsedCodes) (id : GoString × GoString) : Option Nat :=
  (s.attempts id).map (·.object.toNat)

theorem Call.step_count (c : Call) (s : UsedCodes) (id : GoString × GoString) :
    c.rateLimitID ≠ id ∧ (c.step s).2.count id = s.count id ∨ c.rateLimitID = id ∧
      ((c.step s).1.counts = false ∧ c.stage ≠ .setAttempts ∧
          ((c.step s).2.count id = s.count id ∨ (c.step s).2.count id = none) ∨
        c.stage = .getAttempts ∧ (c.step s).2.count id = s.count id ∧
          ((c.step s).1 = .setAttempts ∧ s.count id = none ∨
            (c.step s).1 = .increment ∧ s.count id ≠ some c.maximumValidationAttempts.toNat) ∨
        c.stage = .setAttempts ∧ (c.step s).1 = .compare ∧ (c.step s).2.count id = some 1 ∨
        c.stage = .increment ∧ (c.step s).1 = .compare ∧
          ∃ n, s.count id = some n ∧ (c.step s).2.count id = some ((n + 1) % 2 ^ 32)) := by
  by_cases hid : c.rateLimitID = id
  · subst hid
    fun_cases Call.step c s <;>
      simp_all [UsedCodes.count, UsedCodes.item, put, Stage.counts, ← UInt32.toNat_inj]
  · fun_cases Call.step c s <;> simp_all [UsedCodes.count, put, Ne.symm hid]

/-- A race with the number of calls that compared a passcode since the counter was created. -/
structure Watched where
  race : Race UsedCodes Call
  compared : Nat

def watch (id : GoString × GoString) (s : Watched) (e : Nat × Nat) : Watched where
  race := turn Call.next s.race e
  compared :=
    match s.race.calls[e.1]?, (s.race.store.wait e.2).count id with
    | none, _ => s.compared
    | some c, none =>
      if c.rateLimitID = id ∧ c.stage = .setAttempts then 0 else s.compared
    | some c, some _ =>
      if c.rateLimitID = id ∧ c.stage = .compare ∧ c.key.isOk then s.compared + 1
      else s.compared

/-- The counter is not read while another call that has read it is about to compare. -/
def ReadsAlone (id : GoString × GoString) (s : Watched) (e : Nat × Nat) : Prop :=
  ∀ c ∈ s.race.calls[e.1]?, c.rateLimitID = id → c.stage = .getAttempts →
    ∀ c' ∈ s.race.calls, c'.rateLimitID = id → c'.stage.counts = false

instance (id : GoString × GoString) (s : Watched) (e : Nat × Nat) :
    Decidable (ReadsAlone id s e) :=
  inferInstanceAs (Decidable (∀ _ ∈ _, _))

structure Limited (id : GoString × GoString) (m : Nat) (s : Watched) : Prop where
  alone : Alone (fun c => c.rateLimitID = id ∧ c.stage.counts = true) s.race.calls
  maximum : ∀ (i : Nat) c, s.race.calls[i]? = some c → c.rateLimitID = id →
    c.maximumValidationAttempts.toNat = m
  bounded : s.compared ≤ m
  counter : ∀ n, s.race.store.count id = some n → n ≤ m ∧ s.compared ≤ n
  waiting : ∀ (i : Nat) c, s.race.calls[i]? = some c → c.rateLimitID = id →
    ∀ n, s.race.store.count id = some n → ¬ (c.stage = .setAttempts ∨
      c.stage = .increment ∧ n = m ∨ c.stage = .compare ∧ n ≤ s.compared)

variable {id : GoString × GoString} {m : Nat} {s : Watched}

theorem Limited.wait (h : Limited id m s) (elapsed : Nat) :
    Limited id m ⟨⟨s.race.store.wait elapsed, s.race.calls⟩, s.compared⟩ := by
  obtain ⟨halone, hmaximum, hbounded, hcounter, hwaiting⟩ := h
  have hwait (n) (h : (s.race.store.wait elapsed).count id = some n) :
      s.race.store.count id = some n := by
    obtain ⟨item, hitem, rfl⟩ := Option.map_eq_some_iff.1 h
    rw [UsedCodes.count, (Option.filter_eq_some_iff.1 hitem).1]
    rfl
  exact ⟨halone, hmaximum, hbounded, fun n h => hcounter n (hwait n h),
    fun i c hc hid n h => hwaiting i c hc hid n (hwait n h)⟩

theorem Limited.watch {e : Nat × Nat} (hm : 0 < m) (hmax : m < 2 ^ 32) (h : Limited id m s)
    (hread : ReadsAlone id s e) : Limited id m (watch id s e) := by
  obtain ⟨halone, hmaximum, hbounded, hcounter, hwaiting⟩ := h.wait e.2
  rw [TotpCodes.watch, turn]
  rcases hc : s.race.calls[e.1]? with _ | c
  · exact h
  have hread := hread c hc
  have hothers (h : c.stage.counts = true ∨ c.stage = .getAttempts) (hc : c.rateLimitID = id)
      (j : Nat) (d) (hd : s.race.calls[j]? = some d) (hj : j ≠ e.1) (hid : d.rateLimitID = id) :
      d.stage ≠ .setAttempts ∧ d.stage ≠ .increment ∧ d.stage ≠ .compare := by
    have := List.mem_of_getElem? hd
    grind [Alone]
  simp only [Call.next] at *
  have hcases := c.step_count (s.race.store.wait e.2) id
  generalize c.step _ = r at *
  generalize s.race.store.wait e.2 = store at *
  rcases hcases with ⟨hne, hcount⟩ | ⟨heq, ⟨hcounts, hset, hcount⟩ | ⟨hget, hcount, hcases⟩ |
    ⟨hset, hcompare, hcount⟩ | ⟨hinc, hcompare, n, hn, hcount⟩⟩
  all_goals constructor <;> grind -ring -linarith [Alone, Call.rateLimitID]

/-- Since its counter was created no more calls than allowed have compared a passcode. -/
theorem attempts_limited {m : UInt32} (hm : m ≠ 0) (hs : ∀ c ∈ s.race.calls, c.stage = .getUsed)
    (hmaximum : ∀ c ∈ s.race.calls, c.rateLimitID = id → c.maximumValidationAttempts = m)
    (hstore : s.race.store.attempts id = none) (hzero : s.compared = 0)
    {history : List (Nat × Nat)} (hrun : Orderly (watch id) (ReadsAlone id) s history) :
    (final (watch id) s history).compared ≤ m.toNat := by
  have hget (i : Nat) (c) (hc : s.race.calls[i]? = some c) := List.mem_of_getElem? hc
  have hpos : 0 < m.toNat := Nat.pos_of_ne_zero fun h => hm (UInt32.toNat_inj.1 h)
  have hstart : Limited id m.toNat s := by
    constructor <;> grind [Alone, UsedCodes.count]
  exact (hrun.keeps (fun _ _ h hread => h.watch hpos m.toNat_lt hread) hstart).bounded

def turns (alternate : Bool) : List (Nat × Nat) :=
  (List.range 14).map fun k => (if alternate then k % 2 else k / 7, 0)

theorem sampleRace_attempts_limited :
    (final (watch ([1], [2])) ⟨sampleRace 2, 0⟩ (turns false)).compared ≤ (1 : UInt32).toNat :=
  attempts_limited (by decide) (by decide) (by decide) rfl rfl (by decide)

theorem sampleRace_attempts_not_limited :
    (∀ c ∈ (sampleRace 2).calls, c.maximumValidationAttempts = 1) ∧
      (final (watch ([1], [2])) ⟨sampleRace 2, 0⟩ (turns true)).compared = 2 := by
  decide

end VaultProofs.TotpCodes
