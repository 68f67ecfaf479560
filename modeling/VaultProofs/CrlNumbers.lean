import Mathlib.Data.List.AList
import VaultProofs.RunHistories

/-!
The numbers of CRLs. They are taken from a map that is stored once all issuer sets are built; each
CRL is stored as soon as it is signed.
-/

namespace VaultProofs.CrlNumbers

open RunHistories

abbrev IssuerID := Nat

abbrev CrlID := Nat

structure InternalCRLConfigEntry where
  issuerIDCRLMap : AList fun _ : IssuerID => CrlID
  crlNumberMap : AList fun _ : CrlID => Nat

structure CRL where
  identifier : CrlID
  number : Nat
  isDelta : Bool
  deriving DecidableEq

/-- The stored configuration of a cluster scope and the CRLs written so far, the last one first. -/
structure Scope where
  config : InternalCRLConfigEntry
  written : List CRL

structure IssuerSet where
  issuers : List IssuerID
  crlSigning : List IssuerID
  genCRLId : CrlID
  /-- The revocation list is within the limit, signed and stored. -/
  built : Bool

/-- The identifier that the issuers share, unless two of them differ. -/
def crlIdentifier (config : InternalCRLConfigEntry) :
    Option CrlID → List IssuerID → Option (Option CrlID)
  | found, [] => some found
  | found, issuer :: issuers =>
    match config.issuerIDCRLMap.lookup issuer, found with
    | none, _ => crlIdentifier config found issuers
    | some this, none => crlIdentifier config (some this) issuers
    | some this, some other =>
      if this = other then crlIdentifier config (some this) issuers else none

structure Building extends Scope where
  failed : Bool

def buildSet (isDelta : Bool) (b : Building) (set : IssuerSet) : Building :=
  if b.failed then b
  else
    match crlIdentifier b.config none set.crlSigning with
    | none => { b with failed := true }
    | some found =>
      if set.crlSigning = [] then b
      else if set.built then
        let identifier := found.getD set.genCRLId
        let number :=
          if found = none then 1 else (b.config.crlNumberMap.lookup identifier).getD 0
        { config :=
            ⟨set.issuers.foldl (·.insert · identifier) b.config.issuerIDCRLMap,
              b.config.crlNumberMap.insert identifier (number + 1)⟩
          written := ⟨identifier, number, isDelta⟩ :: b.written
          failed := false }
      else { b with failed := true }

structure Build where
  isUnified : Bool
  isDelta : Bool
  issuers : List IssuerID
  sets : List IssuerSet
  undeletable : List CrlID
  persists : Bool

def buildAnyCRLs (scopes : Bool → Scope) (b : Build) : Bool → Scope :=
  let scope := scopes b.isUnified
  let done := final (buildSet b.isDelta) ⟨scope, false⟩ b.sets
  let map := done.config.issuerIDCRLMap
  let kept := (map.keys.filter (· ∉ b.issuers)).foldl (fun map issuer => map.erase issuer) map
  let orphans := done.config.crlNumberMap.keys.filter fun id => id ∉ kept.entries.map (·.snd)
  if done.failed ∨ (∃ id ∈ orphans, id ∈ b.undeletable) ∨ b.persists = false then
    Function.update scopes b.isUnified { scope with written := done.written }
  else Function.update scopes b.isUnified ⟨⟨kept, done.config.crlNumberMap⟩, done.written⟩

def Increasing (written : List CRL) : Prop :=
  written.Pairwise fun later earlier =>
    later.identifier = earlier.identifier → earlier.number < later.number

instance (written : List CRL) : Decidable (Increasing written) :=
  inferInstanceAs (Decidable (List.Pairwise _ _))

/-- The set is built, and a new identifier is one that no CRL has. -/
def Builds (b : Building) (set : IssuerSet) : Prop :=
  set.built = true ∧ crlIdentifier b.config none set.crlSigning ≠ none ∧
    ∀ crl ∈ b.written, crl.identifier ≠ set.genCRLId

instance (b : Building) (set : IssuerSet) : Decidable (Builds b set) :=
  inferInstanceAs (Decidable (_ ∧ _ ∧ _))

def Smooth (scopes : Bool → Scope) (b : Build) : Prop :=
  Orderly (buildSet b.isDelta) Builds ⟨scopes b.isUnified, false⟩ b.sets ∧
    b.undeletable = [] ∧ b.persists = true

instance (scopes : Bool → Scope) (b : Build) : Decidable (Smooth scopes b) :=
  inferInstanceAs (Decidable (_ ∧ _ ∧ _))

/-- The next number of an identifier is above all that have been written. -/
structure Numbered (s : Scope) : Prop where
  increasing : Increasing s.written
  below : ∀ crl ∈ s.written,
    ∃ next, s.config.crlNumberMap.lookup crl.identifier = some next ∧ crl.number < next

theorem buildSet_numbered {isDelta : Bool} {b : Building} {set : IssuerSet}
    (h : b.failed = false ∧ Numbered b.toScope) (hset : Builds b set) :
    (buildSet isDelta b set).failed = false ∧ Numbered (buildSet isDelta b set).toScope := by
  obtain ⟨hok, hincreasing, hbelow⟩ := h
  obtain ⟨hbuilt, hsame, hnew⟩ := hset
  obtain ⟨found, hfound⟩ := Option.ne_none_iff_exists'.mp hsame
  simp only [buildSet, hok, hfound, hbuilt, Bool.false_eq_true, if_false, if_true]
  split
  · exact ⟨hok, hincreasing, hbelow⟩
  -- The number is above those of the identifier, whether it is found or new.
  have habove : ∀ crl ∈ b.written, crl.identifier = found.getD set.genCRLId →
      crl.number < if found = none then 1
        else (b.config.crlNumberMap.lookup (found.getD set.genCRLId)).getD 0 := by
    intro crl hcrl hid
    obtain ⟨next, hnext, hlt⟩ := hbelow crl hcrl
    cases found with
    | none => exact absurd hid (hnew crl hcrl)
    | some identifier =>
      rw [hid] at hnext
      simpa [Option.getD_some ▸ hnext] using hlt
  refine ⟨rfl, List.pairwise_cons.mpr ⟨fun crl hcrl h => habove crl hcrl h.symm, hincreasing⟩, ?_⟩
  intro crl hcrl
  by_cases hid : crl.identifier = found.getD set.genCRLId
  · refine ⟨_, by rw [hid]; exact AList.lookup_insert _, ?_⟩
    rcases List.mem_cons.mp hcrl with rfl | hcrl
    · exact Nat.lt_succ_self _
    · exact Nat.lt_succ_of_lt (habove crl hcrl hid)
  · rw [AList.lookup_insert_ne hid]
    exact hbelow crl (by grind)

theorem buildAnyCRLs_numbered {scopes : Bool → Scope} {b : Build} (h : ∀ u, Numbered (scopes u))
    (hb : Smooth scopes b) (u : Bool) : Numbered (buildAnyCRLs scopes b u) := by
  obtain ⟨hsets, hdeletes, hpersists⟩ := hb
  obtain ⟨hok, hdone⟩ := hsets.keeps (fun _ _ => buildSet_numbered) ⟨rfl, h b.isUnified⟩
  by_cases hu : u = b.isUnified
  · subst hu
    simpa [buildAnyCRLs, hok, hdeletes, hpersists] using ⟨hdone.increasing, hdone.below⟩
  · rw [buildAnyCRLs]
    split <;> simpa [hu] using h u

theorem numbers_increase {scopes : Bool → Scope} {history : List Build}
    (hs : ∀ u, (scopes u).written = []) (hrun : Orderly buildAnyCRLs Smooth scopes history)
    (u : Bool) : Increasing (final buildAnyCRLs scopes history u).written := by
  refine (hrun.keeps (fun _ _ h hb => buildAnyCRLs_numbered h hb) (fun u => ⟨?_, ?_⟩) u).increasing
  · simp [hs, Increasing]
  · simp [hs]

def twoIssuers : Bool → Scope :=
  fun _ => ⟨⟨[⟨0, 10⟩, ⟨1, 11⟩].toAList, [⟨10, 4⟩, ⟨11, 7⟩].toAList⟩, []⟩

def completeBuild (signed : Bool) : Build :=
  ⟨false, false, [0, 1], [⟨[0], [0], 20, true⟩, ⟨[1], [1], 21, signed⟩], [], true⟩

theorem second_build_numbered : Increasing
    (final buildAnyCRLs twoIssuers [completeBuild true, completeBuild true] false).written :=
  numbers_increase (fun _ => rfl) (by decide) false

theorem number_reused : (final buildAnyCRLs twoIssuers
    [completeBuild false, completeBuild true] false).written =
      [⟨11, 7, false⟩, ⟨10, 4, false⟩, ⟨10, 4, false⟩] := by
  decide

end VaultProofs.CrlNumbers
