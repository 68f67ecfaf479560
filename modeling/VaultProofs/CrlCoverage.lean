import Mathlib.Logic.Function.Basic
import VaultProofs.RunHistories

/-!
Revocations and CRL builds, at the steps in which they read and write storage.
-/

namespace VaultProofs.CrlCoverage

open RunHistories

abbrev Serial := Nat

abbrev IssuerID := Nat

structure Config where
  issuerSets : List (List IssuerID)
  crlSigning : List IssuerID
  defaultIssuer : Option IssuerID
  autoRebuild : Bool
  enableDelta : Bool

variable (c : Config)

def Config.signers (k : Nat) : List IssuerID :=
  (c.issuerSets[k]?.getD []).filter (· ∈ c.crlSigning)

/-- An entry with this issuer is put on the CRL of the set; the set of the default issuer has those
without one. -/
def Config.lists (k : Nat) (issuer : Option IssuerID) : Bool :=
  (issuer.or c.defaultIssuer).any (· ∈ c.signers k)

/-- A revocation entry with the issuer that was found for it. -/
structure Entry where
  serial : Serial
  issuer : Option IssuerID
  deriving DecidableEq

def serials (entries : List Entry) : List Serial :=
  entries.map (·.serial)

inductive Revoking where
  | idle
  | recorded (serial : Serial)
  | logged (serial : Serial)
  | rebuilding (serial : Serial)
  deriving DecidableEq

/-- What a build has read, and the sets whose CRLs are not yet written. -/
inductive Building where
  | idle
  | listed (wal : List Serial)
  | completing (wal : List Serial) (entries : List Entry) (left : List Nat)
  | clearing (wal : List Serial)
  | marked (last : Option Serial)
  | deltas (last : Option Serial) (entries : List Entry) (left : List Nat)
  deriving DecidableEq

structure State where
  revoked : List Entry
  wal : List Serial
  lastRevoked : Option Serial
  lastBuild : Option Serial
  complete : Nat → List Serial
  delta : Nat → List Serial
  revoking : Revoking
  building : Building
  /-- The serials for which a call has answered that they are revoked. -/
  answered : List Serial

/-- A revocation or a build starts or goes on, with a set of its choice. -/
inductive Action where
  | revoke (entry : Entry)
  | revokeNext
  | startBuild (isDelta : Bool)
  | buildNext (k : Nat)

def Config.buildCRL (crls : Nat → List Serial) (entries : List Entry) (k : Nat) :
    Nat → List Serial :=
  if c.signers k = [] then crls
  else Function.update crls k (serials (entries.filter (c.lists k ·.issuer)))

def State.endBuild (s : State) (built : Bool) : State :=
  match s.revoking with
  | .rebuilding serial =>
    { s with
      building := .idle
      revoking := .idle
      answered := if built then serial :: s.answered else s.answered }
  | _ => { s with building := .idle }

def step (s : State) : Action × Bool → State
  | (.revoke entry, fails) =>
    if s.revoking ≠ .idle ∨ fails then s
    else if entry.serial ∈ serials s.revoked then
      { s with answered := entry.serial :: s.answered }
    else { s with revoked := entry :: s.revoked, revoking := .recorded entry.serial }
  | (.revokeNext, fails) =>
    match s.revoking with
    | .recorded serial =>
      if c.autoRebuild = false then
        if s.building ≠ .idle then s
        else if fails then { s with revoking := .idle }
        else { s with revoking := .rebuilding serial, building := .listed s.wal }
      else if c.enableDelta = false then
        { s with revoking := .idle, answered := serial :: s.answered }
      else if fails then { s with revoking := .idle }
      else { s with wal := serial :: s.wal, revoking := .logged serial }
    | .logged serial =>
      if fails then { s with revoking := .idle }
      else
        { s with
          lastRevoked := some serial
          revoking := .idle
          answered := serial :: s.answered }
    | _ => s
  | (.startBuild isDelta, fails) =>
    if s.building ≠ .idle ∨ fails then s
    else { s with building := if isDelta then .marked s.lastRevoked else .listed s.wal }
  | (.buildNext k, fails) =>
    let sets := List.range c.issuerSets.length
    if s.building ≠ .idle ∧ fails then s.endBuild false
    else
      match s.building with
      | .idle => s
      | .listed wal => { s with building := .completing wal s.revoked sets }
      | .completing wal entries left =>
        if left = [] then { s with building := .clearing wal }
        else if k ∉ left then s
        else
          { s with
            complete := c.buildCRL s.complete entries k
            building := .completing wal entries (left.filter (· ≠ k)) }
      | .clearing [] => { s with building := .marked s.lastRevoked }
      | .clearing (serial :: wal) =>
        { s with wal := s.wal.filter (· ≠ serial), building := .clearing wal }
      | .marked last =>
        { s with building := .deltas last (s.revoked.filter (·.serial ∈ s.wal)) sets }
      | .deltas last entries left =>
        if left = [] then { s with lastBuild := last.or s.lastBuild }.endBuild true
        else if k ∉ left then s
        else
          { s with
            delta := c.buildCRL s.delta entries k
            building := .deltas last entries (left.filter (· ≠ k)) }

@[grind] def State.shouldRebuildLocalCRLs (s : State) : Bool :=
  s.lastRevoked ≠ none ∧ s.lastRevoked ≠ s.lastBuild

@[grind] def Revoking.serial : Revoking → Option Serial
  | .idle => none
  | .recorded serial => some serial
  | .logged serial => some serial
  | .rebuilding serial => some serial

@[grind] def Building.last : Building → Option Serial
  | .marked last => last
  | .deltas last _ _ => last
  | _ => none

/-- The build will put the entry on the complete CRL of the set. -/
@[grind] def Building.Awaits (k : Nat) (e : Entry) : Building → Prop
  | .listed _ => True
  | .completing _ entries left => k ∈ left ∧ e ∈ entries
  | _ => False

/-- What a build has read and written, as far as it still holds. -/
@[grind] def Building.Fits (s : State) : Building → Prop
  | .listed wal => ∀ serial ∈ wal, serial ∈ serials s.revoked
  | .completing wal entries left =>
    (∀ serial ∈ wal, serial ∈ serials s.revoked) ∧
    (∀ e ∈ s.revoked, e.serial ∈ wal ∨ (∃ k, e.serial ∈ s.complete k) → e ∈ entries) ∧
    ∀ e ∈ entries, e ∈ s.revoked ∧ ∀ k, k ∉ left → c.lists k e.issuer → e.serial ∈ s.complete k
  | .clearing wal =>
    (∀ serial ∈ wal, serial ∈ serials s.revoked) ∧
    ∀ e ∈ s.revoked, e.serial ∈ wal → ∀ k, c.lists k e.issuer → e.serial ∈ s.complete k
  | .deltas last entries left =>
    (s.shouldRebuildLocalCRLs = false ∨ s.lastRevoked = last → ∀ e ∈ s.revoked,
      e.serial ∈ s.wal → s.revoking = .logged e.serial ∨ e ∈ entries) ∧
    ∀ e ∈ entries, ∀ k, k ∉ left → c.lists k e.issuer → e.serial ∈ s.delta k
  | _ => True

structure Covered (s : State) : Prop where
  unique : ∀ e ∈ s.revoked, ∀ e' ∈ s.revoked, e.serial = e'.serial → e = e'
  known : ∀ serial, serial ∈ s.wal ∨ (∃ k, serial ∈ s.complete k) ∨
    s.revoking.serial = some serial → serial ∈ serials s.revoked
  used : ∀ serial, s.lastRevoked = some serial ∨ s.lastBuild = some serial ∨
    s.building.last = some serial ∨ serial ∈ s.answered →
      serial ∈ serials s.revoked ∧ s.revoking.serial ≠ some serial
  manual : c.autoRebuild = false → s.wal = []
  published : ∀ e ∈ s.revoked, ∀ k, c.lists k e.issuer → e.serial ∈ s.complete k ∨
    e.serial ∈ s.wal ∨ s.revoking = .recorded e.serial ∨
      s.revoking = .rebuilding e.serial ∧ s.building.Awaits k e
  seen : s.shouldRebuildLocalCRLs = false → ∀ e ∈ s.revoked, e.serial ∈ s.wal →
    s.revoking = .logged e.serial ∨ ∀ k, c.lists k e.issuer → e.serial ∈ s.delta k
  fits : s.building.Fits c s

/-- No operation of a revocation fails once its entry is written. -/
def Unbroken (s : State) (a : Action × Bool) : Prop :=
  a.2 = true → s.revoking = .idle

instance (s : State) (a : Action × Bool) : Decidable (Unbroken s a) :=
  inferInstanceAs (Decidable (_ → _))

variable {c} {s : State}

@[grind →] theorem mem_serials {entries : List Entry} {e : Entry} (h : e ∈ entries) :
    e.serial ∈ serials entries :=
  List.mem_map_of_mem h

@[grind =] theorem mem_buildCRL {crls : Nat → List Serial} {entries : List Entry} {k : Nat}
    {serial : Serial} {set : Nat} : serial ∈ c.buildCRL crls entries k set ↔
      if set = k ∧ c.signers k ≠ [] then
        ∃ e, (e ∈ entries ∧ c.lists k e.issuer) ∧ e.serial = serial
      else serial ∈ crls set := by
  by_cases hk : set = k <;> by_cases hsigners : c.signers k = [] <;>
    simp [Config.buildCRL, serials, hk, hsigners]

@[grind →] theorem signers_of_lists {k : Nat} {issuer : Option IssuerID}
    (h : c.lists k issuer = true) : c.signers k ≠ [] ∧ k < c.issuerSets.length := by
  cases hissuer : issuer.or c.defaultIssuer <;> grind [Config.lists, Config.signers]

theorem Covered.revoke {entry : Entry} {fails : Bool} (h : Covered c s) :
    Covered c (step c s (.revoke entry, fails)) := by
  obtain ⟨hunique, hknown, hused, hmanual, hpublished, hseen, hfits⟩ := id h
  simp only [step]
  split
  · exact h
  split
  · refine ⟨hunique, hknown, ?_, hmanual, hpublished, hseen, ?_⟩
    · grind
    · cases hb : s.building <;> grind
  have hserials : serials (entry :: s.revoked) = entry.serial :: serials s.revoked := rfl
  refine ⟨?_, ?_, ?_, hmanual, ?_, ?_, ?_⟩
  · grind
  · grind
  · grind
  · grind
  · grind
  · cases hb : s.building <;> grind

theorem Covered.revokeNext {fails : Bool} (hdelta : c.autoRebuild = true → c.enableDelta = true)
    (h : Covered c s) (ha : Unbroken s (.revokeNext, fails)) :
    Covered c (step c s (.revokeNext, fails)) := by
  obtain ⟨hunique, hknown, hused, hmanual, hpublished, hseen, hfits⟩ := id h
  simp only [step]
  split
  · rename_i serial hserial
    split_ifs
    · exact h
    · grind [Unbroken]
    · constructor <;> grind
    · grind
    · grind [Unbroken]
    · refine ⟨hunique, ?_, ?_, ?_, ?_, ?_, ?_⟩
      iterate 5 grind
      cases hb : s.building <;> grind
  · rename_i serial hserial
    split_ifs
    · grind [Unbroken]
    · refine ⟨hunique, ?_, ?_, hmanual, ?_, ?_, ?_⟩
      iterate 4 grind
      cases hb : s.building <;> grind
  · exact h

theorem Covered.setBuilding {b : Building} (h : Covered c s) (hfits : b.Fits c s)
    (hawaits : ∀ k e, s.building.Awaits k e → e ∈ s.revoked → c.lists k e.issuer → b.Awaits k e)
    (hlast : b.last = none ∨ b.last = s.lastRevoked ∨ b.last = s.building.last) :
    Covered c { s with building := b } := by
  obtain ⟨hunique, hknown, hused, hmanual, hpublished, hseen, -⟩ := h
  refine ⟨hunique, hknown, ?_, hmanual, ?_, hseen, hfits⟩
  · grind
  · grind

theorem Covered.startBuild {isDelta fails : Bool} (h : Covered c s) :
    Covered c (step c s (.startBuild isDelta, fails)) := by
  obtain ⟨hunique, hknown, hused, hmanual, hpublished, hseen, hfits⟩ := id h
  simp only [step]
  split
  · exact h
  · apply h.setBuilding <;> cases isDelta <;> grind

theorem Covered.endBuild {built : Bool} (h : Covered c s)
    (hdone : s.revoking = .idle ∨ ∀ k e, ¬ s.building.Awaits k e) :
    Covered c (s.endBuild built) := by
  obtain ⟨hunique, hknown, hused, hmanual, hpublished, hseen, -⟩ := h
  rw [State.endBuild]
  split <;> constructor <;> grind

theorem Covered.buildNext {k : Nat} {fails : Bool} (h : Covered c s)
    (ha : Unbroken s (.buildNext k, fails)) : Covered c (step c s (.buildNext k, fails)) := by
  obtain ⟨hunique, hknown, hused, hmanual, hpublished, hseen, hfits⟩ := id h
  simp only [step]
  split
  · exact h.endBuild (.inl (by grind [Unbroken]))
  split
  · exact h
  · apply h.setBuilding <;> grind
  · split_ifs
    · apply h.setBuilding <;> grind
    · refine ⟨hunique, ?_, ?_, hmanual, ?_, hseen, ?_⟩ <;> grind
    · exact h
  · apply h.setBuilding <;> grind
  · refine ⟨hunique, ?_, ?_, ?_, ?_, ?_, ?_⟩ <;> grind
  · apply h.setBuilding <;> grind
  rename_i last entries left hb
  split_ifs
  · refine Covered.endBuild ⟨hunique, hknown, ?_, hmanual, hpublished, ?_, ?_⟩ (.inr ?_) <;>
      cases last <;> grind
  · refine ⟨hunique, hknown, ?_, hmanual, ?_, ?_, ?_⟩ <;> grind
  · exact h

variable (c) in
theorem Covered.step (hdelta : c.autoRebuild = true → c.enableDelta = true) (s : State)
    (a : Action × Bool) (h : Covered c s) (ha : Unbroken s a) : Covered c (step c s a) := by
  obtain ⟨action, fails⟩ := a
  cases action with
  | revoke entry => exact h.revoke
  | revokeNext => exact h.revokeNext hdelta ha
  | startBuild isDelta => exact h.startBuild
  | buildNext k => exact h.buildNext ha

/-- Nothing is in progress, and all that is revoked is on its complete CRL. -/
structure Settled (c : Config) (s : State) : Prop where
  idle : s.revoking = .idle ∧ s.building = .idle ∧ s.wal = [] ∧ s.answered = []
  unique : ∀ e ∈ s.revoked, ∀ e' ∈ s.revoked, e.serial = e'.serial → e = e'
  known : ∀ serial, (∃ k, serial ∈ s.complete k) ∨ s.lastRevoked = some serial ∨
    s.lastBuild = some serial → serial ∈ serials s.revoked
  published : ∀ e ∈ s.revoked, ∀ k, c.lists k e.issuer → e.serial ∈ s.complete k

theorem Settled.covered (h : Settled c s) : Covered c s := by
  obtain ⟨⟨hrevoking, hbuilding, hwal, hanswered⟩, hunique, hknown, hpublished⟩ := h
  constructor <;> grind

variable {s' : State} {history : List (Action × Bool)} {e : Entry} {k : Nat}

/-- A certificate that is reported as revoked is published. -/
theorem answered_published (hdelta : c.autoRebuild = true → c.enableDelta = true)
    (hs : Settled c s) (hrun : Orderly (step c) Unbroken s history)
    (hs' : final (step c) s history = s') (he : e ∈ s'.revoked) (hanswered : e.serial ∈ s'.answered)
    (hk : c.lists k e.issuer = true) :
    e.serial ∈ s'.complete k ∨ c.autoRebuild = true ∧ e.serial ∈ s'.wal := by
  have hend := hs' ▸ hrun.keeps (Covered.step c hdelta) hs.covered
  have hpublished := hend.published e he k hk
  have hused := hend.used e.serial
  have hmanual := hend.manual
  grind

/-- The complete and the delta CRL have every revoked serial when no build is due. -/
theorem revoked_covered (hdelta : c.enableDelta = true) (hs : Settled c s)
    (hrun : Orderly (step c) (fun _ a => a.2 = false) s history)
    (hs' : final (step c) s history = s') (hidle : s'.revoking = .idle)
    (hbuilt : s'.shouldRebuildLocalCRLs = false) (he : e ∈ s'.revoked)
    (hk : c.lists k e.issuer = true) : e.serial ∈ s'.complete k ∨ e.serial ∈ s'.delta k := by
  have hend := hs' ▸ hrun.keeps
    (fun s a h ha => Covered.step c (fun _ => hdelta) s a h (by simp [Unbroken, ha])) hs.covered
  have hpublished := hend.published e he k hk
  have hseen := hend.seen hbuilt e he
  grind

def twoIssuers (autoRebuild : Bool) (crlSigning : List IssuerID) : Config :=
  ⟨[[0, 1]], crlSigning, none, autoRebuild, autoRebuild⟩

def newMount : State :=
  ⟨[], [], none, none, fun _ => [], fun _ => [], .idle, .idle, []⟩

theorem newMount_settled : Settled c newMount := by
  constructor <;> simp [newMount]

def revokedAndBuilt (c : Config) : State :=
  final (step c) newMount ([(.revoke ⟨7, some 1⟩, false), (.revokeNext, false),
    (.revokeNext, false), (.startBuild false, false)] ++ List.replicate 8 (.buildNext 0, false))

def outcome (s : State) : List Serial × Building × Bool × List Serial × List Serial :=
  (s.answered, s.building, s.shouldRebuildLocalCRLs, s.complete 0, s.delta 0)

theorem rebuilt_published : 7 ∈ (revokedAndBuilt (twoIssuers false [1])).complete 0 ∨
    false = true ∧ 7 ∈ (revokedAndBuilt (twoIssuers false [1])).wal :=
  answered_published (e := ⟨7, some 1⟩) (by decide) newMount_settled (by decide) rfl (by decide)
    (by decide) (by decide)

theorem retried_unpublished : outcome (final (step (twoIssuers false [1])) newMount
    [(.revoke ⟨7, some 1⟩, false), (.revokeNext, true), (.revoke ⟨7, some 1⟩, false)]) =
      ([7], .idle, false, [], []) := by
  decide

theorem signer_covered : 7 ∈ (revokedAndBuilt (twoIssuers true [1])).complete 0 ∨
    7 ∈ (revokedAndBuilt (twoIssuers true [1])).delta 0 :=
  revoked_covered (e := ⟨7, some 1⟩) rfl newMount_settled (by decide) rfl rfl (by decide)
    (by decide) (by decide)

theorem uncovered_by_signer :
    outcome (revokedAndBuilt (twoIssuers true [0])) = ([7], .idle, false, [], []) := by
  decide

end VaultProofs.CrlCoverage
