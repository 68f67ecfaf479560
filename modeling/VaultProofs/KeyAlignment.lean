import Mathlib.Data.Int.Interval
import VaultProofs.KeyPersistence

/-!
How the keys of a policy and its archive lie to each other, and that moving keys in either direction
keeps it so.
-/

namespace VaultProofs.KeyAlignment

open GoSlices TransitKeys KeyOperations KeyPersistence

abbrev Entries := Int → Option KeyEntry

/-- The map has exactly the versions from `lo` to `hi`, each with its own entry. -/
structure KeysFrom (keys : KeyEntryMap) (lo hi : Int) (own : Entries) : Prop where
  inside : ∀ v, lo ≤ v → v ≤ hi → ∃ entry, own v = some entry ∧ keys.lookup v = some entry
  outside : ∀ v, ¬ (lo ≤ v ∧ v ≤ hi) → keys.lookup v = none

namespace KeysFrom

variable {keys : KeyEntryMap} {lo hi : Int} {own own' : Entries}

section

variable (h : KeysFrom keys lo hi own)

include h

theorem mem_iff {v : Int} : v ∈ keys ↔ lo ≤ v ∧ v ≤ hi := by
  rw [← AList.lookup_isSome]
  constructor
  · intro hsome
    by_contra hv
    rw [h.outside v hv] at hsome
    cases hsome
  rintro ⟨hlo, hhi⟩
  obtain ⟨entry, -, hlookup⟩ := h.inside v hlo hhi
  rw [hlookup]
  rfl

theorem congr (hown : ∀ v, lo ≤ v → v ≤ hi → own' v = own v) : KeysFrom keys lo hi own' := by
  refine ⟨fun v hlo hhi => ?_, h.outside⟩
  rw [hown v hlo hhi]
  exact h.inside v hlo hhi

theorem length_eq (hle : lo ≤ hi + 1) : (keys.entries.length : Int) = hi - lo + 1 := by
  have hset : keys.keys.toFinset = Finset.Icc lo hi := by
    ext v
    rw [List.mem_toFinset, ← AList.mem_keys, h.mem_iff, Finset.mem_Icc]
  have hcard := congrArg Finset.card hset
  rw [List.toFinset_card_of_nodup keys.keys_nodup, Int.card_Icc] at hcard
  have hlength : keys.keys.length = keys.entries.length := List.length_map ..
  omega

theorem insert (hle : lo ≤ hi + 1) (entry : KeyEntry) :
    KeysFrom (keys.insert (hi + 1) entry) lo (hi + 1)
      (Function.update own (hi + 1) (some entry)) := by
  constructor
  · intro v hlo hhi
    by_cases hv : v = hi + 1
    · subst hv
      exact ⟨entry, Function.update_self .., AList.lookup_insert _⟩
    · rw [Function.update_of_ne hv, AList.lookup_insert_ne hv]
      exact h.inside v hlo (by omega)
  · intro v hv
    rw [AList.lookup_insert_ne (by omega)]
    exact h.outside v (by omega)

theorem replace {version : Int} (hlo : lo ≤ version) (hhi : version ≤ hi) (entry : KeyEntry) :
    KeysFrom (keys.insert version entry) lo hi (Function.update own version (some entry)) := by
  constructor
  · intro v hvlo hvhi
    by_cases hv : v = version
    · subst hv
      exact ⟨entry, Function.update_self .., AList.lookup_insert _⟩
    · rw [Function.update_of_ne hv, AList.lookup_insert_ne hv]
      exact h.inside v hvlo hvhi
  · intro v hv
    rw [AList.lookup_insert_ne (by omega)]
    exact h.outside v hv

end

theorem entry_eq {p : Policy} (h : KeysFrom p.keys lo hi own) {v : Int} (hlo : lo ≤ v)
    (hhi : v ≤ hi) : own v = some (p.entry v) := by
  obtain ⟨entry, hown, hlookup⟩ := h.inside v hlo hhi
  rw [hown, Policy.entry, hlookup]
  rfl

end KeysFrom

theorem lookup_eraseAll (versions : List Int) (keys : KeyEntryMap) (v : Int) :
    (versions.foldl (fun keys i => keys.erase i) keys).lookup v =
      if v ∈ versions then none else keys.lookup v := by
  induction versions generalizing keys with
  | nil => rfl
  | cons i rest ih =>
    rw [List.foldl_cons, ih]
    by_cases hv : v = i
    · subst hv
      rw [AList.lookup_erase, if_pos List.mem_cons_self, ite_self]
    · rw [AList.lookup_erase_ne hv]
      simp only [List.mem_cons, hv, false_or]

variable {p : Policy}

theorem dropKeys_keysFrom {lo : Int} {own : Entries} (h : KeysFrom p.keys lo p.latestVersion own)
    (hlo : lo ≤ p.minDecryptionVersion) (hle : p.minDecryptionVersion ≤ p.latestVersion) :
    KeysFrom (dropKeys p).keys p.minDecryptionVersion p.latestVersion own := by
  have hstart : p.latestVersion - p.keys.entries.length + 1 = lo := by
    rw [h.length_eq (by omega)]
    omega
  have hlookup : ∀ v, (dropKeys p).keys.lookup v =
      if v ∈ upTo lo (p.minDecryptionVersion - 1) then none else p.keys.lookup v := by
    intro v
    rw [← hstart]
    exact lookup_eraseAll _ _ v
  constructor
  · intro v hv hhi
    rw [hlookup, if_neg (by rw [mem_upTo]; omega)]
    exact h.inside v (by omega) hhi
  intro v hv
  rw [hlookup]
  split
  · rfl
  · rename_i hdropped
    rw [mem_upTo] at hdropped
    exact h.outside v (by omega)

variable {archive : List KeyEntry}

theorem fillArchive_window {kept : Entries} {lo : Int} (hi : Int) (k : Nat)
    (hk : hi = p.archiveVersion + k)
    (hwindow : Window archive p.minAvailableVersion lo p.archiveVersion kept)
    (hbase : p.minAvailableVersion ≤ p.archiveVersion + 1)
    (hlength : hi - p.minAvailableVersion < archive.length)
    (hkeys : ∀ v, p.archiveVersion < v → v ≤ hi → kept v = some (p.entry v)) :
    ∃ archive', fillArchive (upTo (p.archiveVersion + 1) hi) p archive =
        ({ p with archiveVersion := hi }, archive', true) ∧
      archive'.length = archive.length ∧ Window archive' p.minAvailableVersion lo hi kept := by
  induction k generalizing p archive with
  | zero =>
    have hhi : hi = p.archiveVersion := by simpa using hk
    subst hhi
    rw [upTo_of_lt (by omega)]
    exact ⟨archive, rfl, rfl, hwindow⟩
  | succ k ih =>
    have hk' : hi = p.archiveVersion + 1 + k := by
      omega
    rw [upTo_cons (by omega), fillArchive, store_eq_some (by omega) (by omega)]
    have hnext := hwindow.set hbase (by omega) (hkeys _ (by omega) (by omega))
    obtain ⟨archive', hfill, hsize, hwindow'⟩ := ih (p := { p with archiveVersion := p.archiveVersion + 1 })
      hk' hnext (by simp only; omega) (by rw [List.length_set]; exact hlength)
      (fun v hv hvhi => hkeys v (by simp only at hv; omega) hvhi)
    exact ⟨archive', hfill, by rw [hsize, List.length_set], hwindow'⟩

theorem loadKeys_lookup {kept : Entries} (hi : Int) (k : Nat) (lo : Int) (hk : hi + 1 = lo + k)
    (hwindow : Window archive p.minAvailableVersion lo hi kept) :
    ∃ keys, loadKeys archive (upTo lo hi) p = ({ p with keys := keys }, true) ∧
      ∀ v, keys.lookup v = if lo ≤ v ∧ v ≤ hi then kept v else p.keys.lookup v := by
  induction k generalizing lo p with
  | zero =>
    rw [upTo_of_lt (by omega)]
    refine ⟨p.keys, rfl, fun v => ?_⟩
    rw [if_neg (by omega)]
  | succ k ih =>
    obtain ⟨entry, hentry, hslot⟩ := hwindow lo (by omega) (by omega)
    rw [upTo_cons (by omega), loadKeys, hslot]
    obtain ⟨keys, hload, hlookup⟩ := ih (lo + 1)
      (p := { p with keys := p.keys.insert lo entry }) (by push_cast at hk; omega)
      (hwindow.mono (by omega) le_rfl)
    refine ⟨keys, hload, fun v => ?_⟩
    rw [hlookup]
    by_cases hv : v = lo
    · subst hv
      rw [if_neg (by omega), if_pos (by omega), hentry]
      exact AList.lookup_insert _
    by_cases hrange : lo + 1 ≤ v ∧ v ≤ hi
    · rw [if_pos hrange, if_pos (by omega)]
    · rw [if_neg hrange, if_neg (by omega)]
      exact AList.lookup_insert_ne hv

/-- A policy with its archive: every version has its own entry among the keys, and its kept one in
the archive. -/
structure Aligned (p : Policy) (archive : List KeyEntry) (own kept : Entries) : Prop where
  one_le : 1 ≤ p.minDecryptionVersion
  le_latest : p.minDecryptionVersion ≤ p.latestVersion
  available_nonneg : 0 ≤ p.minAvailableVersion
  available_le : p.minAvailableVersion ≤ p.minDecryptionVersion
  archive_eq : p.archiveVersion = p.latestVersion
  archiveMin_eq : p.archiveMinVersion = p.minAvailableVersion
  keys : KeysFrom p.keys p.minDecryptionVersion p.latestVersion own
  window : Window archive p.minAvailableVersion (max 1 p.minAvailableVersion) p.latestVersion kept

structure Movable (p : Policy) (archive : List KeyEntry) (own kept : Entries) (lo : Int) :
    Prop where
  one_le : 1 ≤ p.minDecryptionVersion
  lo_le : lo ≤ p.minDecryptionVersion
  le_latest : p.minDecryptionVersion ≤ p.latestVersion
  available_nonneg : 0 ≤ p.archiveMinVersion
  available_le : p.minAvailableVersion ≤ p.minDecryptionVersion
  archiveMin_le : p.archiveMinVersion ≤ p.minAvailableVersion
  archive_le : p.archiveVersion ≤ p.latestVersion
  lo_archive : lo ≤ p.archiveVersion + 1
  available_archive : p.minAvailableVersion ≤ p.archiveVersion + 1
  base : p.archiveMinVersion = p.minAvailableVersion ∨ p.archiveVersion = p.latestVersion
  keys : KeysFrom p.keys lo p.latestVersion own
  window : Window archive p.archiveMinVersion (max 1 p.archiveMinVersion) p.archiveVersion kept
  newer : ∀ v, p.archiveVersion < v → v ≤ p.latestVersion → kept v = own v

namespace Movable

variable {own kept : Entries} {lo : Int}

section

variable (h : Movable p archive own kept lo)

include h

/-- Either nothing has been trimmed, or the archive is up to date and only its front
goes. -/
theorem archived_eq :
    ∃ archive', archived p archive = some ({ p with
        archiveVersion := p.latestVersion, archiveMinVersion := p.minAvailableVersion }, archive') ∧
      Window archive' p.minAvailableVersion (max 1 p.minAvailableVersion) p.latestVersion kept := by
  obtain ⟨hone, hlo, hle, hnonneg, havail, hmin, harch, hloarch, havailarch, hbase, hkeys, hwindow,
    hnewer⟩ := h
  have hlength : p.latestVersion - p.minAvailableVersion < (growArchive p archive).length := by
    rw [growArchive]
    split
    · rw [length_resize (by omega)]
      omega
    · omega
  rcases eq_or_lt_of_le hmin with heq | hless
  · have hgrown : Window (growArchive p archive) p.minAvailableVersion
        (max 1 p.minAvailableVersion) p.archiveVersion kept := by
      rw [← heq, growArchive]
      split
      · exact hwindow.resize (by omega)
      · exact hwindow
    obtain ⟨archive', hfill, -, hwindow'⟩ := fillArchive_window p.latestVersion
      (p.latestVersion - p.archiveVersion).toNat (by omega) hgrown
      havailarch hlength (fun v hv hvhi => by
        rw [hnewer v hv hvhi]
        exact hkeys.entry_eq (by omega) hvhi)
    refine ⟨archive', ?_, hwindow'⟩
    simp only [archived, hfill, if_true]
    rw [trimArchive, if_neg (by simp only; omega), heq]
  have hcurrent : p.archiveVersion = p.latestVersion := by
    rcases hbase with hbase | hbase
    · omega
    · exact hbase
  rw [hcurrent] at hwindow
  obtain ⟨entry, -, hslot⟩ := hwindow p.latestVersion (by omega) le_rfl
  have hbound := (slot_of_lt hslot).2
  have hgrow : growArchive p archive = archive := if_neg (by omega)
  refine ⟨archive.drop (p.minAvailableVersion - p.archiveMinVersion).toNat, ?_, ?_⟩
  · simp only [archived, hcurrent, hgrow]
    rw [upTo_of_lt (by omega)]
    simp only [fillArchive, if_true]
    rw [trimArchive, if_pos hless, sliceFrom_eq_some (by omega) (by omega), Option.map_some,
      ← hcurrent]
  · exact (hwindow.drop hmin).mono (by omega) le_rfl

theorem aligned {archive' : List KeyEntry}
    (hwindow : Window archive' p.minAvailableVersion (max 1 p.minAvailableVersion)
      p.latestVersion kept) :
    Aligned (dropKeys { p with
      archiveVersion := p.latestVersion, archiveMinVersion := p.minAvailableVersion })
      archive' own kept where
  one_le := h.one_le
  le_latest := h.le_latest
  available_nonneg := le_trans h.available_nonneg h.archiveMin_le
  available_le := h.available_le
  archive_eq := rfl
  archiveMin_eq := rfl
  keys := dropKeys_keysFrom
    (p := { p with
      archiveVersion := p.latestVersion, archiveMinVersion := p.minAvailableVersion })
    h.keys h.lo_le h.le_latest
  window := hwindow

theorem containsMinimum : Policy.containsMinimum p = true := by
  obtain ⟨entry, -, hlookup⟩ := h.keys.inside p.minDecryptionVersion h.lo_le h.le_latest
  rw [Policy.containsMinimum, hlookup]
  rfl

/-- A policy that can be moved is refused only if it is deleted or its minimums are in the
wrong order. -/
theorem persistError_eq (hdeleted : p.deleted = false)
    (hminimums : ¬ (0 < p.minEncryptionVersion ∧ p.minEncryptionVersion < p.minDecryptionVersion)) :
    persistError p = none := by
  have hone := h.one_le
  have hle := h.le_latest
  have harch := h.archive_le
  rw [persistError, if_neg (by rw [hdeleted]; exact Bool.false_ne_true), h.containsMinimum]
  simp only [checkVersions]
  rw [if_neg (by omega), if_neg (by omega), if_neg (by simp), if_neg (by omega), if_neg hminimums,
    if_neg (by omega)]

theorem trimmed_eq : trimmedMinVersion p = p.minAvailableVersion := by
  rw [trimmedMinVersion]
  split
  · rfl
  · have hle := h.archiveMin_le
    omega

end

end Movable

structure Lowered (p : Policy) (archive : List KeyEntry) (own kept : Entries) (lo : Int) :
    Prop where
  one_le : 1 ≤ p.minDecryptionVersion
  below : p.minDecryptionVersion < lo
  lo_le : lo ≤ p.latestVersion
  available_nonneg : 0 ≤ p.minAvailableVersion
  available_le : p.minAvailableVersion ≤ p.minDecryptionVersion
  archive_eq : p.archiveVersion = p.latestVersion
  archiveMin_eq : p.archiveMinVersion = p.minAvailableVersion
  keys : KeysFrom p.keys lo p.latestVersion own
  window : Window archive p.minAvailableVersion (max 1 p.minAvailableVersion) p.latestVersion kept

namespace Lowered

variable {own kept : Entries} {lo : Int}

theorem latest_ne_zero (h : Lowered p archive own kept lo) : p.latestVersion ≠ 0 := by
  obtain ⟨hone, hbelow, hlo, -⟩ := h
  omega

theorem loadKeys_eq (h : Lowered p archive own kept lo) :
    ∃ keys, loadKeys archive (upTo p.minDecryptionVersion p.latestVersion) p =
        ({ p with keys := keys }, true) ∧
      Aligned { p with keys := keys } archive kept kept := by
  obtain ⟨hone, hbelow, hlo, hnonneg, havail, harch, hmin, hkeys, hwindow⟩ := h
  have hwindow' : Window archive p.minAvailableVersion p.minDecryptionVersion p.latestVersion kept :=
    hwindow.mono (by omega) le_rfl
  obtain ⟨keys, hload, hlookup⟩ := loadKeys_lookup p.latestVersion
    (p.latestVersion + 1 - p.minDecryptionVersion).toNat p.minDecryptionVersion (by omega) hwindow'
  refine ⟨keys, hload, hone, by simp only; omega, hnonneg, havail, harch, hmin, ⟨?_, ?_⟩, hwindow⟩
  · intro v hvlo hvhi
    obtain ⟨entry, hentry, -⟩ := hwindow' v hvlo hvhi
    refine ⟨entry, hentry, ?_⟩
    rw [hlookup, if_pos ⟨hvlo, hvhi⟩, hentry]
  intro v hv
  rw [hlookup, if_neg hv]
  simp only at hv
  exact hkeys.outside v (by omega)

theorem not_containsMinimum (h : Lowered p archive own kept lo) :
    Policy.containsMinimum p = false := by
  have hbelow := h.below
  rw [Policy.containsMinimum, h.keys.outside p.minDecryptionVersion (by omega)]
  rfl

end Lowered

namespace Aligned

variable {own kept : Entries}

theorem movable_raised (h : Aligned p archive own kept) {version : Int}
    (hle : p.minDecryptionVersion ≤ version) (hlatest : version ≤ p.latestVersion) :
    Movable { p with minDecryptionVersion := version } archive own kept p.minDecryptionVersion where
  one_le := le_trans h.one_le hle
  lo_le := hle
  le_latest := hlatest
  available_nonneg := le_of_le_of_eq h.available_nonneg h.archiveMin_eq.symm
  available_le := le_trans h.available_le hle
  archiveMin_le := le_of_eq h.archiveMin_eq
  archive_le := le_of_eq h.archive_eq
  lo_archive := by
    have harch := h.archive_eq
    simp only
    omega
  available_archive := by
    have harch := h.archive_eq
    have havail := h.available_le
    simp only
    omega
  base := .inr h.archive_eq
  keys := h.keys
  window := by
    have hwindow := h.window
    rw [← h.archiveMin_eq, ← h.archive_eq] at hwindow
    exact hwindow
  newer := by
    intro v hv hhi
    have harch := h.archive_eq
    simp only at hv hhi
    omega

theorem lowered (h : Aligned p archive own kept) {version : Int} (hone : 1 ≤ version)
    (havail : p.minAvailableVersion ≤ version) (hless : version < p.minDecryptionVersion) :
    Lowered { p with minDecryptionVersion := version } archive own kept p.minDecryptionVersion where
  one_le := hone
  below := hless
  lo_le := h.le_latest
  available_nonneg := h.available_nonneg
  available_le := havail
  archive_eq := h.archive_eq
  archiveMin_eq := h.archiveMin_eq
  keys := h.keys
  window := h.window

end Aligned

theorem Aligned.movable {own kept : Entries} (h : Aligned p archive own kept) :
    Movable p archive own kept p.minDecryptionVersion :=
  h.movable_raised le_rfl h.le_latest

structure SameRing (p q : Policy) : Prop where
  latest : q.latestVersion = p.latestVersion
  keys : q.keys = p.keys
  archive : q.archiveVersion = p.archiveVersion
  archiveMin : q.archiveMinVersion = p.archiveMinVersion
  available : q.minAvailableVersion = p.minAvailableVersion
  minDecryption : q.minDecryptionVersion = p.minDecryptionVersion

variable {q : Policy} {own own' kept kept' : Entries} {lo : Int}

theorem movable_sameRing (h : Movable p archive own kept lo)
    (hring : SameRing p q := by exact ⟨rfl, rfl, rfl, rfl, rfl, rfl⟩) :
    Movable q archive own kept lo := by
  obtain ⟨hlatest, hkeys, harchive, hmin, havail, hdec⟩ := hring
  obtain ⟨h1, h2, h3, h4, h5, h6, h7, h8, h9, h10, h11, h12, h13⟩ := h
  constructor
  all_goals simp only [hlatest, hkeys, harchive, hmin, havail, hdec]
  all_goals assumption

theorem lowered_sameRing (h : Lowered p archive own kept lo) (hring : SameRing p q) :
    Lowered q archive own kept lo := by
  obtain ⟨hlatest, hkeys, harchive, hmin, havail, hdec⟩ := hring
  obtain ⟨h1, h2, h3, h4, h5, h6, h7, h8, h9⟩ := h
  constructor
  all_goals simp only [hlatest, hkeys, harchive, hmin, havail, hdec]
  all_goals assumption

section

variable (h : Aligned p archive own kept)

include h

theorem aligned_sameRing (hring : SameRing p q) : Aligned q archive own kept := by
  obtain ⟨hlatest, hkeys, harchive, hmin, havail, hdec⟩ := hring
  obtain ⟨h1, h2, h3, h4, h5, h6, h7, h8⟩ := h
  constructor
  all_goals simp only [hlatest, hkeys, harchive, hmin, havail, hdec]
  all_goals assumption

theorem aligned_congr (hown : ∀ v, v ≤ p.latestVersion → own' v = own v)
    (hkept : ∀ v, v ≤ p.latestVersion → kept' v = kept v) : Aligned p archive own' kept' where
  one_le := h.one_le
  le_latest := h.le_latest
  available_nonneg := h.available_nonneg
  available_le := h.available_le
  archive_eq := h.archive_eq
  archiveMin_eq := h.archiveMin_eq
  keys := h.keys.congr fun v _ => hown v
  window := h.window.congr fun v _ => hkept v

def grown (p : Policy) (entry : KeyEntry) : Policy :=
  { p with
    latestVersion := p.latestVersion + 1,
    keys := p.keys.insert (p.latestVersion + 1) entry,
    minDecryptionVersion := if p.minDecryptionVersion = 0 then 1 else p.minDecryptionVersion }

theorem movable_grown (entry : KeyEntry) :
    Movable (grown p entry) archive (Function.update own (p.latestVersion + 1) (some entry))
      (Function.update kept (p.latestVersion + 1) (some entry)) p.minDecryptionVersion := by
  obtain ⟨hone, hle, hnonneg, havail, harch, hmin, hkeys, hwindow⟩ := h
  have hdec : (grown p entry).minDecryptionVersion = p.minDecryptionVersion :=
    if_neg (by omega)
  constructor
  · rw [hdec]
    exact hone
  · rw [hdec]
  · rw [hdec, grown]
    simp only
    omega
  · simp only [grown]
    omega
  · rw [hdec]
    exact havail
  · exact le_of_eq hmin
  · simp only [grown]
    omega
  · simp only [grown]
    omega
  · simp only [grown]
    omega
  · exact .inl hmin
  · exact hkeys.insert (by omega) entry
  · have hsame : ∀ v, max 1 p.minAvailableVersion ≤ v → v ≤ p.latestVersion →
        Function.update kept (p.latestVersion + 1) (some entry) v = kept v :=
      fun v _ hv => Function.update_of_ne (by omega) _ _
    have hwindow' := hwindow.congr hsame
    rw [← hmin, ← harch] at hwindow'
    rw [← harch]
    exact hwindow'
  intro v hv hhi
  simp only [grown] at hv hhi
  have hv' : v = p.latestVersion + 1 := by omega
  rw [hv', Function.update_self, Function.update_self]

omit h in
theorem movable_first (hlatest : p.latestVersion = 0) (hkeys : p.keys = ∅)
    (harch : p.archiveVersion = 0) (hmin : p.archiveMinVersion = 0)
    (havail : p.minAvailableVersion = 0) (hdec : p.minDecryptionVersion = 0) (entry : KeyEntry)
    (own : Entries) :
    Movable (grown p entry) [] (Function.update own (p.latestVersion + 1) (some entry))
      (Function.update own (p.latestVersion + 1) (some entry)) 1 := by
  have hfirst : KeysFrom p.keys 1 p.latestVersion own := by
    rw [hkeys, hlatest]
    exact ⟨fun v _ _ => by omega, fun v _ => rfl⟩
  have hdec' : (grown p entry).minDecryptionVersion = 1 := if_pos hdec
  constructor
  · rw [hdec']
  · rw [hdec']
  · rw [hdec', grown]
    simp only
    omega
  · exact le_of_eq hmin.symm
  · exact le_of_eq_of_le havail (by omega)
  · exact le_of_eq (hmin.trans havail.symm)
  · simp only [grown]
    omega
  · simp only [grown]
    omega
  · simp only [grown]
    omega
  · exact .inl (hmin.trans havail.symm)
  · exact hfirst.insert (by omega) entry
  · intro v _ _
    simp only [grown] at *
    omega
  · intro v _ _
    rfl

theorem aligned_replaced {version : Int} (hlo : p.minDecryptionVersion ≤ version)
    (hhi : version ≤ p.latestVersion) (entry : KeyEntry) :
    Aligned { p with keys := p.keys.insert version entry } archive
      (Function.update own version (some entry)) kept :=
  ⟨h.one_le, h.le_latest, h.available_nonneg, h.available_le, h.archive_eq, h.archiveMin_eq,
    h.keys.replace hlo hhi entry, h.window⟩

theorem movable_trimmed {version : Int} (hle : p.minAvailableVersion ≤ version)
    (hdec : version ≤ p.minDecryptionVersion) :
    Movable { p with minAvailableVersion := version } archive own kept p.minDecryptionVersion := by
  obtain ⟨hone, hlatest, hnonneg, havail, harch, hmin, hkeys, hwindow⟩ := h
  refine ⟨hone, le_rfl, hlatest, ?_, hdec, ?_, ?_, ?_, ?_, .inr harch, hkeys, ?_, ?_⟩
  · simp only
    omega
  · simp only
    omega
  · exact le_of_eq harch
  · simp only
    omega
  · simp only
    omega
  · rw [← hmin, ← harch] at hwindow
    exact hwindow
  · intro v hv hhi
    simp only at hv hhi
    omega

end

end VaultProofs.KeyAlignment
