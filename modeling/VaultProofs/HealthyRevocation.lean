import VaultProofs.StackWalks
import VaultProofs.TokenStore

/-!
Lookups and revocations with storage that does not fail.
-/

namespace VaultProofs.HealthyRevocation

open GoStrings ProgramOutcomes StackWalks TokenEffects TokenStore
open VaultEffects (GoError)

/-- Listing the children of a token visits it, asking for its deletion state passes
it to `revokeInternal`. -/
def event : TokenOp → Option (Event SaltedID)
  | .listChildren parent => some (.visit parent)
  | .loadOrStorePending (.salted token) => some (.pass token)
  | _ => none

def events (log : List TokenOp) : List (Event SaltedID) :=
  log.filterMap event

structure SameToken (token : SaltedID) (w w' : World) : Prop where
  entry : w'.state.entries.find token = w.state.entries.find token
  leases : ∀ path, w'.state.leases ⟨path, token⟩ = w.state.leases ⟨path, token⟩
  pending : w'.state.pending (.salted token) = w.state.pending (.salted token)

theorem SameToken.refl (token : SaltedID) (w : World) : SameToken token w w :=
  ⟨rfl, fun _ => rfl, rfl⟩

variable {token : SaltedID} {a b c : World}

theorem SameToken.trans (hab : SameToken token a b) (hbc : SameToken token b c) :
    SameToken token a c :=
  ⟨hbc.entry.trans hab.entry, fun path => (hbc.leases path).trans (hab.leases path),
    hbc.pending.trans hab.pending⟩

/-- The index, the record of the walk and the other tokens stay as they are. -/
structure Quiet (key : SaltedID) (w w' : World) : Prop where
  parents : w'.state.parents = w.state.parents
  events : events w'.log = events w.log
  others : ∀ token, token ≠ key → SameToken token w w'

theorem Quiet.refl (key : SaltedID) (w : World) : Quiet key w w :=
  ⟨rfl, rfl, fun token _ => SameToken.refl token w⟩

variable {key : SaltedID}

theorem Quiet.trans (hab : Quiet key a b) (hbc : Quiet key b c) : Quiet key a c :=
  ⟨hbc.parents.trans hab.parents, hbc.events.trans hab.events,
    fun token htoken => (hab.others token htoken).trans (hbc.others token htoken)⟩

variable {entry : TokenEntry}

section quiet

variable {w : World} (op : TokenOp)

theorem quiet_read (hop : event op = none := by rfl) : Quiet key w ⟨w.state, op :: w.log⟩ where
  parents := rfl
  events := by simp [events, hop]
  others token _ := ⟨rfl, fun _ => rfl, rfl⟩

theorem quiet_put (hop : event op = none) (hentry : entry.saltedID = key) :
    Quiet key w ⟨{ w.state with entries := w.state.entries.put entry }, op :: w.log⟩ where
  parents := rfl
  events := by simp [events, hop]
  others token htoken :=
    ⟨TokenTable.find_put_of_ne _ (hentry ▸ htoken), fun _ => rfl, rfl⟩

theorem quiet_delete (hop : event op = none) :
    Quiet key w ⟨{ w.state with entries := w.state.entries.delete key }, op :: w.log⟩ where
  parents := rfl
  events := by simp [events, hop]
  others token htoken := ⟨TokenTable.find_delete_of_ne _ htoken, fun _ => rfl, rfl⟩

theorem quiet_lease (hop : event op = none) (path : GoString) (lease : Option Lease) :
    Quiet key w
      ⟨{ w.state with leases := Function.update w.state.leases ⟨path, key⟩ lease },
        op :: w.log⟩ where
  parents := rfl
  events := by simp [events, hop]
  others token htoken := by
    refine ⟨rfl, fun path' => Function.update_of_ne ?_ .., rfl⟩
    intro heq
    exact htoken (congrArg LeaseID.token heq)

theorem quiet_pending (hop : event op = none) (flag : Option Bool) :
    Quiet key w
      ⟨{ w.state with pending := Function.update w.state.pending (.salted key) flag },
        op :: w.log⟩ where
  parents := rfl
  events := by simp [events, hop]
  others token htoken := by
    refine ⟨rfl, fun _ => rfl, Function.update_of_ne ?_ ..⟩
    intro heq
    exact htoken (PendingKey.salted.inj heq)

end quiet

def needsNoLease (entry : TokenEntry) : Prop :=
  entry.isRoot = true ∨ entry.type = .ent

/-- A lookup finds the token, if there is one, and does not revoke it. -/
def Leased (s : TokenState) (key : SaltedID) : Prop :=
  ∀ entry, s.entries.find key = some entry →
    needsNoLease entry ∨ s.leases ⟨entry.path, key⟩ ≠ none

def Clean (s : TokenState) (key : SaltedID) : Prop :=
  Leased s key ∧ s.pending (.salted key) ≠ some true

variable {w w' : World}

theorem SameToken.leased (h : SameToken token w w') (hleased : Leased w.state token) :
    Leased w'.state token := by
  intro entry hentry
  rw [h.entry] at hentry
  rw [h.leases]
  exact hleased entry hentry

theorem SameToken.clean (h : SameToken token w w') (hclean : Clean w.state token) :
    Clean w'.state token :=
  ⟨h.leased hclean.1, h.pending ▸ hclean.2⟩

/-- A relation between worlds that does not see what happens to the token `key`
alone. -/
structure Absorbs (key : SaltedID) (T : World → World → Prop) : Prop where
  quiet : ∀ {a b}, Quiet key a b → T a b
  left : ∀ {a b c}, T b c → Quiet key a b → T a c
  right : ∀ {a b c}, T a b → Quiet key b c → T a c

/-- A relation that sees neither what happened to the token `key` before nor its lease go. -/
structure Follows (key : SaltedID) (T : World → World → Prop) : Prop where
  left : ∀ {a b c}, T b c → Quiet key a b → T a c
  unleased : ∀ {a b} path, T a b →
    T a ⟨{ b.state with leases := Function.update b.state.leases ⟨path, key⟩ none },
      .deleteLease ⟨path, key⟩ :: b.log⟩

theorem Absorbs.follows {T : World → World → Prop} (h : Absorbs key T) : Follows key T :=
  ⟨h.left, fun path hab => h.right hab (quiet_lease _ rfl path none)⟩

@[simp] theorem upgraded_path (stored : TokenEntry) : (upgraded stored).path = stored.path := rfl

@[simp] theorem upgraded_saltedID (stored : TokenEntry) :
    (upgraded stored).saltedID = stored.saltedID := rfl

@[simp] theorem upgraded_namespaceID (stored : TokenEntry) :
    (upgraded stored).namespaceID = rootNamespaceID := rfl

variable {stored : TokenEntry}

theorem upgraded_type_ent : (upgraded stored).type = .ent ↔ stored.type = .ent := by
  simp only [upgraded]
  split
  · rename_i hdefault
    simp [hdefault]
  · rfl

theorem persistNeeded_upgraded (stored : TokenEntry) : persistNeeded (upgraded stored) = false := by
  simp [persistNeeded, upgraded]

def Settled (entry : TokenEntry) : Prop :=
  persistNeeded entry = false ∨ needsNoLease entry

theorem store_healthy (hns : entry.namespaceID = rootNamespaceID) {w : World}
    {ok : Unit → World → Prop} {err : GoError → World → Prop} :
    Finishes healthy (store entry) w ok err ↔
      ok () ⟨{ w.state with entries := w.state.entries.put entry },
        .putEntry entry :: .saltID entry.id :: .namespaceByID rootNamespaceID :: w.log⟩ := by
  simp only [store, storeCommon, writeParentIndex, finishes_bind, finishes_healthy, wrapErr,
    finishes_mapError, effect, outcomePost, namespaceByID, saltID, hns, if_true, finishes_pure,
    true_or, forall_const]

theorem quiet_store (entry : TokenEntry) (w : World) :
    Quiet entry.saltedID w ⟨{ w.state with entries := w.state.entries.put entry },
      .putEntry entry :: .saltID entry.id :: .namespaceByID rootNamespaceID :: w.log⟩ :=
  ((quiet_read _).trans (quiet_read _)).trans (quiet_put _ rfl rfl)

theorem Leased.put {s : TokenState} (hfind : s.entries.find stored.saltedID = some stored)
    (h : Leased s stored.saltedID) :
    Leased { s with entries := s.entries.put (upgraded stored) } stored.saltedID := by
  intro entry hentry
  rw [← upgraded_saltedID, TokenTable.find_put_self] at hentry
  cases hentry
  refine (h stored hfind).imp ?_ id
  exact Or.imp id upgraded_type_ent.mpr

theorem persistUpgrade_healthy {w : World} : Finishes healthy (persistUpgrade stored) w
      (fun _ w' => Quiet stored.saltedID w w' ∧ w'.state.leases = w.state.leases ∧
        w'.state.pending = w.state.pending ∧
        if persistNeeded stored then w'.state.entries = w.state.entries.put (upgraded stored)
        else w' = w)
      never := by
  rw [persistUpgrade]
  split
  · rw [wrapErr, finishes_mapError, store_healthy rfl]
    exact ⟨quiet_store (upgraded stored) w, rfl, rfl, rfl⟩
  · exact ⟨Quiet.refl _ w, rfl, rfl, rfl⟩

variable {revokeTree : GoString → TokenM Unit} {T : World → World → Prop}

def NestedRuns (revokeTree : GoString → TokenM Unit) (T : World → World → Prop) (w : World)
    (key : SaltedID) : Prop :=
  ∀ w', Quiet key w w' → Leased w'.state key →
    w'.state.pending (.salted key) = w.state.pending (.salted key) →
    Finishes healthy (revokeTree key.id) w' (fun _ w'' => T w' w'') never

theorem NestedRuns.of_quiet {w₁ : World} (h : NestedRuns revokeTree T w key)
    (hquiet : Quiet key w w₁)
    (hpending : w₁.state.pending (.salted key) = w.state.pending (.salted key)) :
    NestedRuns revokeTree T w₁ key :=
  fun w' hw' hleased hsame => h w' (hquiet.trans hw') hleased (hsame.trans hpending)

theorem revokeWithoutLease_healthy (hT : Follows entry.saltedID T)
    (hns : entry.namespaceID = rootNamespaceID)
    (hmissing : w.state.leases ⟨entry.path, entry.saltedID⟩ = none)
    (hpath : ∀ found, w.state.entries.find entry.saltedID = some found → found.path = entry.path)
    (hN : NestedRuns revokeTree T w entry.saltedID) :
    Finishes healthy (revokeWithoutLease revokeTree entry) w (fun _ w' => T w w') never := by
  have hmissing' : w.state.leases ⟨entry.path, ⟨entry.id⟩⟩ = none := hmissing
  simp only [revokeWithoutLease, createOrFetchRevocationLeaseByToken, revokeCommon, namespaceByID,
    saltID, finishes_bind, finishes_healthy, effect, outcomePost, hns, if_true, forall_const,
    hmissing', entry.path_clean, Bool.false_eq_true, if_false, Function.update_self, wrapErr,
    finishes_mapError, finishes_pure]
  intro now
  set w₁ : World := ⟨w.state, .timeNow :: .loadLease ⟨entry.path, ⟨entry.id⟩⟩ ::
    .saltID entry.id :: .namespaceByID rootNamespaceID :: .namespaceByID rootNamespaceID :: w.log⟩
  have hread : Quiet entry.saltedID w w₁ :=
    ((((quiet_read _).trans (quiet_read _)).trans (quiet_read _)).trans
      (quiet_read _)).trans (quiet_read _)
  have hleased := (hread.trans (quiet_lease (.putLease ⟨entry.path, ⟨entry.id⟩⟩
    ⟨entry.id, now + 1⟩) rfl entry.path (some ⟨entry.id, now + 1⟩))).trans
    (quiet_read (.loadLease ⟨entry.path, ⟨entry.id⟩⟩))
  refine (hN _ hleased ?_ rfl).imp ?_
  · intro found hfound
    right
    rw [hpath found hfound]
    exact fun h => absurd ((Function.update_self ..).symm.trans h) (by simp)
  · intro _ w' hw'
    exact hT.left (hT.unleased entry.path hw') hleased

/-- With its lease the token is found and nothing happens; without, the nested revocation runs and
nothing is returned. -/
theorem checkLease_healthy (hT : Follows stored.saltedID T)
    (hfind : w.state.entries.find stored.saltedID = some stored) (hbare : ¬ needsNoLease stored)
    (hN : ¬ Leased w.state stored.saltedID → NestedRuns revokeTree T w stored.saltedID) :
    Finishes healthy (checkLease revokeTree (upgraded stored) true) w
      (fun found w' =>
        (Leased w.state stored.saltedID →
          w'.state = w.state ∧ Quiet stored.saltedID w w' ∧ found = some (upgraded stored)) ∧
        (¬ Leased w.state stored.saltedID → T w w' ∧ found = none))
      never := by
  simp only [checkLease, fetchLeaseTimesByToken, namespaceByID, saltID, finishes_bind, wrapErr,
    finishes_mapError, finishes_healthy, effect, outcomePost, upgraded_namespaceID, if_true,
    forall_const]
  have hread : Quiet stored.saltedID w ⟨w.state,
      .loadLease ⟨(upgraded stored).path, ⟨(upgraded stored).id⟩⟩ ::
        .saltID (upgraded stored).id :: .namespaceByID rootNamespaceID :: w.log⟩ :=
    ((quiet_read _).trans (quiet_read _)).trans (quiet_read _)
  cases hlease : w.state.leases ⟨(upgraded stored).path, ⟨(upgraded stored).id⟩⟩ with
  | none =>
    have hmissing : ¬ Leased w.state stored.saltedID :=
      fun h => (h stored hfind).elim hbare (absurd hlease)
    simp only [finishes_bind]
    refine Finishes.imp (revokeWithoutLease_healthy hT rfl ?_ ?_ ?_) ?_
    · exact hlease
    · intro found hfound
      have hsame : stored = found := Option.some.inj (hfind.symm.trans hfound)
      rw [← hsame, upgraded_path]
    · exact (hN hmissing).of_quiet hread rfl
    · intro _ w' hw'
      exact ⟨fun h => absurd h hmissing, fun _ => ⟨hT.left hw' hread, rfl⟩⟩
  | some lease =>
    simp only [finishes_bind, finishes_healthy, effect, outcomePost, finishes_pure, or_true,
      if_true]
    have hleased : Leased w.state stored.saltedID := by
      intro entry hentry
      obtain rfl : stored = entry := Option.some.inj (hfind.symm.trans hentry)
      exact .inr fun hnone => by cases hlease.symm.trans hnone
    intro now
    have hquiet := hread.trans (quiet_read .timeNow)
    exact ⟨fun _ => ⟨trivial, hquiet, trivial⟩, absurd hleased⟩

/-- What a tainted lookup leaves when it does not revoke the token. -/
structure Found (key : SaltedID) (w w' : World) (found : Option TokenEntry) : Prop where
  quiet : Quiet key w w'
  leased : Leased w'.state key
  pending : w'.state.pending (.salted key) = w.state.pending (.salted key)
  gone : found = none → w'.state.entries.find key = none
  absent : w.state.entries.find key = none → w'.state.entries.find key = none
  settled : ∀ entry, w'.state.entries.find key = some entry → Settled entry

variable {found : Option TokenEntry}

theorem Found.left (hbc : Found key b c found) (hab : Quiet key a b) (hstate : b.state = a.state) :
    Found key a c found :=
  ⟨hab.trans hbc.quiet, hbc.leased, hstate ▸ hbc.pending, hbc.gone, hstate ▸ hbc.absent,
    hbc.settled⟩

theorem Found.right (hab : Found key a b found) (hbc : Quiet key b c) (hstate : c.state = b.state) :
    Found key a c found :=
  ⟨hab.quiet.trans hbc, hstate ▸ hab.leased, hstate ▸ hab.pending, hstate ▸ hab.gone,
    hstate ▸ hab.absent, hstate ▸ hab.settled⟩

theorem persistUpgrade_found (hfind : w.state.entries.find stored.saltedID = some stored)
    (hleased : Leased w.state stored.saltedID) :
    Finishes healthy (persistUpgrade stored) w
      (fun _ w' => Found stored.saltedID w w' (some (upgraded stored))) never := by
  refine persistUpgrade_healthy.imp ?_
  rintro _ w' ⟨hquiet, hleases, hpending, hentries⟩
  split at hentries
  · refine ⟨hquiet, ?_, by rw [hpending], by simp, by simp [hfind], ?_⟩
    · have hput := hleased.put hfind
      intro entry hentry
      rw [hentries] at hentry
      rw [hleases]
      exact hput entry hentry
    · intro entry hentry
      rw [hentries, ← upgraded_saltedID, TokenTable.find_put_self] at hentry
      cases hentry
      exact .inl (persistNeeded_upgraded stored)
  rename_i hneeded
  subst hentries
  refine ⟨hquiet, hleased, rfl, by simp, id, ?_⟩
  intro entry hentry
  obtain rfl : stored = entry := Option.some.inj (hfind.symm.trans hentry)
  exact .inl (by simpa using hneeded)

/-- A tainted lookup. With a lease the token is found, upgraded; without, the nested
revocation runs, and an upgrade may store the entry again. -/
structure LookedUp (key : SaltedID) (T : World → World → Prop) (w w' : World)
    (found : Option TokenEntry) : Prop where
  leased : Leased w.state key → Found key w w' found
  bare : ¬ Leased w.state key → found = none ∧ ∃ w₁, T w w₁ ∧ Quiet key w₁ w' ∧
    ((∀ stored ∈ w.state.entries.find key, persistNeeded stored = false) → w' = w₁)
  upgraded : ∀ entry ∈ found, entry.saltedID = key ∧ entry.namespaceID = rootNamespaceID ∧
    persistNeeded entry = false

theorem LookedUp.left (hT : Follows key T) (hbc : LookedUp key T b c found) (hab : Quiet key a b)
    (hstate : b.state = a.state) : LookedUp key T a c found := by
  refine ⟨fun h => (hbc.leased (hstate ▸ h)).left hab hstate, ?_, hbc.upgraded⟩
  intro h
  obtain ⟨hnone, w₁, hw₁, hquiet, hsame⟩ := hbc.bare (hstate ▸ h)
  exact ⟨hnone, w₁, hT.left hw₁ hab, hquiet, hstate ▸ hsame⟩

theorem LookedUp.absorbed {a b : World} (h : LookedUp key T a b found) (hT : Absorbs key T) :
    T a b := by
  by_cases hleased : Leased a.state key
  · exact hT.quiet (h.leased hleased).quiet
  · obtain ⟨-, w₁, hw₁, hquiet, -⟩ := h.bare hleased
    exact hT.right hw₁ hquiet

theorem lookupStored_healthy (hT : Follows stored.saltedID T)
    (hfind : w.state.entries.find stored.saltedID = some stored)
    (hN : ¬ Leased w.state stored.saltedID → NestedRuns revokeTree T w stored.saltedID) :
    Finishes healthy (lookupStored revokeTree stored true) w
      (fun found w' => LookedUp stored.saltedID T w w' found) never := by
  have hfree : needsNoLease stored → Leased w.state stored.saltedID := by
    intro hfree entry hentry
    obtain rfl : stored = entry := Option.some.inj (hfind.symm.trans hentry)
    exact .inl hfree
  have hself : ∀ entry ∈ some (upgraded stored), entry.saltedID = stored.saltedID ∧
      entry.namespaceID = rootNamespaceID ∧ persistNeeded entry = false := by
    intro entry hentry
    cases hentry
    exact ⟨rfl, rfl, persistNeeded_upgraded stored⟩
  have hkept : needsNoLease stored →
      LookedUp stored.saltedID T w w (some (upgraded stored)) := by
    intro hfree'
    refine ⟨fun h => ⟨Quiet.refl _ w, h, rfl, by simp, id, ?_⟩,
      fun h => absurd (hfree hfree') h, hself⟩
    intro entry hentry
    obtain rfl : stored = entry := Option.some.inj (hfind.symm.trans hentry)
    exact .inr hfree'
  rw [lookupStored]
  split
  · rename_i hroot
    rw [finishes_bind]
    have hleased := hfree (.inl hroot.1)
    refine (persistUpgrade_found hfind hleased).imp ?_
    intro _ w' hfound
    exact ⟨fun _ => hfound, absurd hleased, hself⟩
  split
  · rename_i hroot
    exact hkept (.inl hroot)
  split
  · rename_i hent
    exact hkept (.inr (upgraded_type_ent.mp hent))
  rename_i hroot hent
  have hbare : ¬ needsNoLease stored :=
    fun h => h.elim hroot fun htype => hent (upgraded_type_ent.mpr htype)
  rw [finishes_bind]
  refine (checkLease_healthy hT hfind hbare hN).imp ?_
  rintro found w₁ ⟨hleased₁, hmissing₁⟩
  rw [finishes_bind]
  by_cases hleased : Leased w.state stored.saltedID
  · obtain ⟨hstate, hquiet, rfl⟩ := hleased₁ hleased
    refine Finishes.imp (persistUpgrade_found ?_ ?_) ?_
    · rw [hstate]
      exact hfind
    · rw [hstate]
      exact hleased
    · intro _ w' hfound
      exact ⟨fun _ => hfound.left hquiet hstate, absurd hleased, hself⟩
  obtain ⟨hw₁, rfl⟩ := hmissing₁ hleased
  refine persistUpgrade_healthy.imp ?_
  rintro _ w' ⟨hquiet, -, -, hentries⟩
  refine ⟨fun h => absurd h hleased, fun _ => ⟨rfl, w₁, hw₁, hquiet, ?_⟩, by simp⟩
  intro hsettled
  simpa [hsettled stored hfind] using hentries

theorem lookupSalted_healthy (hT : Follows key T)
    (hN : ¬ Leased w.state key → NestedRuns revokeTree T w key) :
    Finishes healthy (lookupSalted revokeTree key true) w
      (fun found w' => LookedUp key T w w' found) never := by
  simp only [lookupSalted, finishes_bind, wrapErr, finishes_mapError, finishes_healthy, effect,
    outcomePost, forall_const]
  have hread : Quiet key w ⟨w.state, .getEntry key :: w.log⟩ := quiet_read _
  cases hfind : w.state.entries.find key with
  | none =>
    have hleased : Leased w.state key := fun entry hentry => by cases hfind.symm.trans hentry
    refine ⟨fun _ => ⟨hread, hleased, rfl, fun _ => hfind, id, ?_⟩,
      absurd hleased, by simp⟩
    exact fun entry hentry => by cases hfind.symm.trans hentry
  | some stored =>
    obtain rfl : key = stored.saltedID := w.state.entries.keyed key stored hfind
    simp only [Bool.true_eq_false, and_false, if_false]
    refine Finishes.imp (lookupStored_healthy hT ?_ ?_) ?_
    · exact hfind
    · exact fun hbare => (hN hbare).of_quiet hread rfl
    · exact fun found w' h => h.left hT hread rfl

/-- At most index entries of `id` as a child go, the record grows by events about `id`, and the
other tokens stay. -/
structure LeafChange (id : SaltedID) (w w' : World) : Prop where
  sub : w'.state.parents.Sublist w.state.parents
  kept : ∀ e ∈ w.state.parents, e ∉ w'.state.parents → e.2 = id
  fresh : ∃ fresh, events w'.log = fresh ++ events w.log ∧
    ∀ event ∈ fresh, event = .visit id ∨ event = .pass id
  others : ∀ token, token ≠ id → SameToken token w w'

theorem Quiet.leafChange {id : SaltedID} (h : Quiet id w w') : LeafChange id w w' where
  sub := h.parents ▸ List.Sublist.refl _
  kept e he hgone := absurd (h.parents ▸ he) hgone
  fresh := ⟨[], h.events, by simp⟩
  others := h.others

theorem LeafChange.trans {id : SaltedID} (hab : LeafChange id a b) (hbc : LeafChange id b c) :
    LeafChange id a c := by
  refine ⟨hbc.sub.trans hab.sub, ?_, ?_, ?_⟩
  · intro e he hgone
    by_cases hb : e ∈ b.state.parents
    · exact hbc.kept e hb hgone
    · exact hab.kept e he hb
  · obtain ⟨first, hfirst, habout⟩ := hab.fresh
    obtain ⟨second, hsecond, habout'⟩ := hbc.fresh
    refine ⟨second ++ first, by rw [hsecond, hfirst, List.append_assoc], ?_⟩
    intro event hevent
    rcases List.mem_append.mp hevent with h | h
    · exact habout' event h
    · exact habout event h
  · intro token htoken
    exact (hab.others token htoken).trans (hbc.others token htoken)

theorem leafChange_absorbs (id : SaltedID) : Absorbs id (LeafChange id) where
  quiet h := h.leafChange
  left h hquiet := hquiet.leafChange.trans h
  right h hquiet := h.trans hquiet.leafChange

theorem destroyCubbyhole_healthy (hns : entry.namespaceID = rootNamespaceID) (key : SaltedID) :
    Finishes healthy (destroyCubbyhole entry) w (fun _ w' => Quiet key w w') never := by
  rw [destroyCubbyhole]
  split
  · simp only [finishes_bind, saltID, finishes_healthy, effect, outcomePost, forall_const]
    exact ⟨rfl, rfl, fun token _ => ⟨rfl, fun _ => rfl, rfl⟩⟩
  rename_i hservice
  have hkey : entry.cubbyholeID ≠ [] := entry.cubbyhole_ne_nil (by simpa [hns] using hservice)
  simp only [if_neg hkey, finishes_healthy, effect, outcomePost, forall_const]
  exact ⟨rfl, rfl, fun token _ => ⟨rfl, fun _ => rfl, rfl⟩⟩

theorem revokeByToken_healthy (id path : GoString) :
    Finishes healthy (revokeByToken revokeTree id rootNamespaceID path) w
      (fun _ w' => Quiet ⟨id⟩ w w') never := by
  simp only [revokeByToken, namespaceByID, saltID, finishes_bind, wrapErr, finishes_mapError,
    finishes_healthy, effect, outcomePost, if_true, forall_const]
  have hscan : Quiet ⟨id⟩ w ⟨w.state, .revokeLeases ⟨id⟩ :: .saltID id ::
      .namespaceByID rootNamespaceID :: w.log⟩ :=
    ((quiet_read _).trans (quiet_read _)).trans (quiet_read _)
  split
  · exact hscan
  simp only [finishes_bind, finishes_healthy, effect, outcomePost, forall_const, revokeCommon]
  have hload := (hscan.trans (quiet_read (.saltID id))).trans
    (quiet_read (.loadLease ⟨path, ⟨id⟩⟩))
  cases w.state.leases ⟨path, ⟨id⟩⟩ with
  | none => exact hload
  | some lease =>
    simp only [if_true, finishes_healthy, effect, outcomePost, forall_const]
    exact hload.trans (quiet_lease _ rfl path none)

variable {id : SaltedID}

theorem clearParentIndex_healthy :
    Finishes healthy (clearParentIndex id entry) w (fun _ w' => LeafChange id w w') never := by
  rw [clearParentIndex]
  split
  · exact (Quiet.refl id w).leafChange
  simp only [finishes_bind, saltID, wrapErr, finishes_mapError, finishes_healthy, effect,
    outcomePost, forall_const, deletePath]
  refine ⟨List.filter_sublist, ?_, ⟨[], rfl, by simp⟩, fun token _ => ⟨rfl, fun _ => rfl, rfl⟩⟩
  intro e he hgone
  have heq : e = (⟨entry.parent⟩, id) := by simpa [he] using hgone
  rw [heq]

theorem clearAccessor_healthy (key : SaltedID) :
    Finishes healthy (clearAccessor entry) w (fun _ w' => Quiet key w w') never := by
  rw [clearAccessor]
  split
  · exact Quiet.refl key w
  · simp only [finishes_bind, saltID, wrapErr, finishes_mapError, finishes_healthy, effect,
      outcomePost, forall_const]
    exact ⟨rfl, rfl, fun token _ => ⟨rfl, fun _ => rfl, rfl⟩⟩

theorem removeReferences_healthy (hns : entry.namespaceID = rootNamespaceID) :
    Finishes healthy (removeReferences revokeTree entry.saltedID entry true) w
      (fun _ w' => LeafChange entry.saltedID w w') never := by
  rw [removeReferences, hns]
  refine (destroyCubbyhole_healthy hns entry.saltedID).bind ?_
  intro _ w₁ h₁
  refine (revokeByToken_healthy entry.id entry.path).bind ?_
  intro _ w₂ h₂
  refine clearParentIndex_healthy.bind ?_
  intro _ w₃ h₃
  refine (clearAccessor_healthy entry.saltedID).bind ?_
  intro _ w₄ h₄
  exact ((h₁.trans h₂).leafChange.trans h₃).trans h₄.leafChange

theorem markRevoked_healthy (hns : entry.namespaceID = rootNamespaceID) :
    Finishes healthy (markRevoked entry) w
      (fun found w' => Quiet entry.saltedID w w' ∧ found.saltedID = entry.saltedID ∧
        found.namespaceID = rootNamespaceID ∧ (w'.state = w.state ∨
          w'.state.entries.find entry.saltedID = some (marked entry))) never := by
  rw [markRevoked]
  split
  · exact ⟨Quiet.refl _ w, rfl, hns, .inl rfl⟩
  simp only [finishes_bind, finishes_capture]
  have hmarked : (marked entry).namespaceID = rootNamespaceID := hns
  refine (store_healthy hmarked).mpr ?_
  exact ⟨quiet_store (marked entry) w, rfl, hns, .inr (TokenTable.find_put_self ..)⟩

theorem settleRevocation_healthy (id : SaltedID) :
    Finishes healthy (settleRevocation id (.ok ())) w
      (fun _ w' => Quiet id w w' ∧ w'.state.entries.find id = none) never := by
  simp only [settleRevocation, finishes_bind, finishes_capture, finishes_resume, wrapErr,
    finishes_mapError, finishes_healthy, effect, outcomePost, forall_const]
  exact ⟨(quiet_delete _ rfl).trans (quiet_pending _ rfl none), TokenTable.find_delete_self ..⟩

def LeafSound (revokeTree : GoString → TokenM Unit) : Prop :=
  ∀ token w, token ≠ [] → (∀ c, (⟨token⟩, c) ∉ w.state.parents) → Leased w.state ⟨token⟩ →
    Finishes healthy (revokeTree token) w (fun _ w' => LeafChange ⟨token⟩ w w') never

theorem id_ne_nil_of_not_leased {s : TokenState} (h : ¬ Leased s key) : key.id ≠ [] := by
  rw [Leased, not_forall] at h
  obtain ⟨entry, hentry⟩ := h
  have hfind : s.entries.find key = some entry := by
    by_contra hnone
    exact hentry fun hfound => absurd hfound hnone
  rw [s.entries.keyed key entry hfind]
  exact entry.id_ne_nil

theorem LeafSound.nestedRuns (h : LeafSound revokeTree)
    (hleaf : ∀ c, (key, c) ∉ w.state.parents) (hbare : ¬ Leased w.state key) :
    NestedRuns revokeTree (LeafChange key) w key := by
  intro w' hquiet hleased _
  refine h key.id w' (id_ne_nil_of_not_leased hbare) ?_ hleased
  intro c
  rw [hquiet.parents]
  exact hleaf c

/-- What the part of `revokeInternal` before its deferred function leaves. -/
structure Marked (id : SaltedID) (T : World → World → Prop) (w w' : World)
    (found : Option TokenEntry) : Prop where
  change : T w w'
  gone : Leased w.state id → found = none → w'.state.entries.find id = none
  entry : ∀ entry ∈ found, entry.saltedID = id ∧ entry.namespaceID = rootNamespaceID
  settled : ∀ entry ∈ found, ∀ stored ∈ w'.state.entries.find id, Settled stored

theorem findRevoked_healthy {T : World → World → Prop} (hT : Absorbs id T)
    (hN : ¬ Leased w.state id → NestedRuns revokeTree T w id) :
    Finishes healthy (findRevoked revokeTree id) w (fun found w' => Marked id T w w' found)
      never := by
  refine (lookupSalted_healthy hT.follows hN).bind ?_
  rintro (_ | entry) w₁ hlookup
  · exact ⟨hlookup.absorbed hT, fun h _ => (hlookup.leased h).gone rfl, by simp, by simp⟩
  obtain ⟨rfl, hns, hupgraded⟩ := hlookup.upgraded entry rfl
  have hleased : Leased w.state entry.saltedID := by
    by_contra hbare
    cases (hlookup.bare hbare).1
  refine (markRevoked_healthy hns).bind ?_
  rintro found w₂ ⟨hquiet, hsalted, hns₂, hstored⟩
  simp only [finishes_bind, namespaceByID, finishes_healthy, effect, outcomePost, hns₂, if_true,
    forall_const]
  refine ⟨hT.right (hlookup.absorbed hT) (hquiet.trans (quiet_read _)), by simp, ?_, ?_⟩
  · intro entry hentry
    cases hentry
    exact ⟨hsalted, hns₂⟩
  intro _ _ stored hfind
  rcases hstored with hstate | hmarked
  · exact (hlookup.leased hleased).settled stored (hstate ▸ hfind)
  · cases hmarked.symm.trans hfind
    exact .inl hupgraded

theorem revokeFlagged_leaf (hleaf : ∀ c, (id, c) ∉ w.state.parents)
    (hN : Leased w.state id ∨ LeafSound revokeTree) :
    Finishes healthy (revokeFlagged revokeTree id true) w
      (fun _ w' => LeafChange id w w' ∧ (Leased w.state id → w'.state.entries.find id = none))
      never := by
  have hnested : ¬ Leased w.state id → NestedRuns revokeTree (LeafChange id) w id :=
    fun hbare => (hN.resolve_left hbare).nestedRuns hleaf hbare
  refine (findRevoked_healthy (leafChange_absorbs id) hnested).bind ?_
  rintro (_ | entry) w₁ hfound
  · exact ⟨hfound.change, fun h => hfound.gone h rfl⟩
  obtain ⟨rfl, hns⟩ := hfound.entry entry rfl
  simp only [finishes_bind, finishes_capture]
  refine (removeReferences_healthy hns).mono ?_ fun _ _ h => h.elim
  intro _ w₂ h₂
  refine (settleRevocation_healthy entry.saltedID).imp ?_
  rintro _ w₃ ⟨hquiet, hnone⟩
  exact ⟨(hfound.change.trans h₂).trans hquiet.leafChange, fun _ => hnone⟩

/-- What passing a token without children to `revokeInternal` does. -/
structure LeafRevoked (id : SaltedID) (w w' : World) : Prop where
  sub : w'.state.parents.Sublist w.state.parents
  kept : ∀ e ∈ w.state.parents, e ∉ w'.state.parents → e.2 = id
  fresh : ∃ fresh, events w'.log = fresh ++ .pass id :: events w.log ∧
    ∀ event ∈ fresh, event = .visit id ∨ event = .pass id
  others : ∀ token, token ≠ id → SameToken token w w'
  removed : Clean w.state id → w'.state.entries.find id = none
  gone : w.state.entries.find id = none → w'.state.entries.find id = none

theorem LeafRevoked.leafChange {w w' : World} (h : LeafRevoked id w w') : LeafChange id w w' := by
  obtain ⟨fresh, hfresh, habout⟩ := h.fresh
  refine ⟨h.sub, h.kept, ⟨fresh ++ [.pass id], by simp [hfresh], ?_⟩, h.others⟩
  intro event hevent
  rcases List.mem_append.mp hevent with hevent | hevent
  · exact habout event hevent
  · exact .inr (List.mem_singleton.mp hevent)

theorem revokeInternal_leaf (hleaf : ∀ c, (id, c) ∉ w.state.parents)
    (hN : Leased w.state id ∨ LeafSound revokeTree) :
    Finishes healthy (revokeInternal revokeTree id true) w (fun _ w' => LeafRevoked id w w')
      never := by
  simp only [revokeInternal, finishes_bind, finishes_healthy, effect, outcomePost, forall_const]
  set w₁ : World := ⟨{ w.state with
    pending := Function.update w.state.pending (.salted id)
      (some ((w.state.pending (.salted id)).getD true)) },
    .loadOrStorePending (.salted id) :: w.log⟩ with hw₁
  have hothers : ∀ token, token ≠ id → SameToken token w w₁ := by
    intro token htoken
    refine ⟨rfl, fun _ => rfl, Function.update_of_ne ?_ ..⟩
    exact fun heq => htoken (PendingKey.salted.inj heq)
  split
  · rename_i hflag
    exact ⟨List.Sublist.refl _, fun e he hgone => absurd he hgone, ⟨[], rfl, by simp⟩, hothers,
      fun hclean => absurd hflag hclean.2, fun hnone => hnone⟩
  refine Finishes.imp (revokeFlagged_leaf ?_ ?_) ?_
  · exact hleaf
  · exact hN
  rintro _ w' ⟨hchange, hremoved⟩
  refine ⟨hchange.sub, hchange.kept, hchange.fresh,
    fun token htoken => (hothers token htoken).trans (hchange.others token htoken),
    fun hclean => hremoved hclean.1, ?_⟩
  -- A token that is not stored counts as found without its lease.
  intro hnone
  exact hremoved fun entry hentry => by cases hnone.symm.trans hentry

end VaultProofs.HealthyRevocation
