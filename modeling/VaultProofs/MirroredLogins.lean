import VaultProofs.ExternalGroups

/-!
After a login the memberships of external groups mirror the returned aliases, unless the alias of a
group that the entity is in is returned twice.
-/

namespace VaultProofs.MirroredLogins

open GoStrings GoMaps KeyedLists IdentityStores ExternalGroups
open EffectPrograms (bind_eq_ok)
open VaultEffects (GoError)

variable {cfg : Config} {db : DB} {entityID mountAccessor : GoString} {logins : List LoginAlias}

def Names (cfg : Config) (login : LoginAlias) (row : Alias) : Prop :=
  row.mountAccessor = login.mountAccessor ∧ cfg.foldName row.name = cfg.foldName login.name

instance (cfg : Config) (login : LoginAlias) (row : Alias) : Decidable (Names cfg login row) :=
  inferInstanceAs (Decidable (_ ∧ _))

/-- The table of group aliases has the aliases of the groups, distinct by mount and name. -/
structure AliasesAgree (cfg : Config) (db : DB) : Prop where
  owned : ∀ row ∈ db.groupAliases.rows, ∃ group ∈ db.groups.rows,
    group.id = row.canonicalID ∧ group.groupAlias = some row
  listed : ∀ group ∈ db.groups.rows, ∀ row, group.groupAlias = some row →
    row ∈ db.groupAliases.rows ∧ row.canonicalID = group.id
  distinct : ∀ row ∈ db.groupAliases.rows, ∀ row' ∈ db.groupAliases.rows,
    row.mountAccessor = row'.mountAccessor → cfg.foldName row.name = cfg.foldName row'.name →
      row = row'

def mentions (cfg : Config) (logins : List LoginAlias) (group : Group) : Nat :=
  logins.countP fun login => group.groupAlias.any fun row => Names cfg login row

theorem mentions_cons (login : LoginAlias) (logins : List LoginAlias) (group : Group) :
    mentions cfg (login :: logins) group = mentions cfg logins group +
      if (group.groupAlias.any fun row => Names cfg login row) = true then 1 else 0 :=
  List.countP_cons

variable {row : Alias} {group : Group}

theorem mentions_pos_iff {named : Alias} (hrow : group.groupAlias = some row)
    (haccessor : named.mountAccessor = row.mountAccessor) (hname : named.name = row.name) :
    0 < mentions cfg logins group ↔ ∃ login ∈ logins, Names cfg login named := by
  rw [mentions, List.countP_pos_iff, hrow]
  simp only [Option.any_some, decide_eq_true_eq]
  simp only [Names, haccessor, hname]

theorem mapping_iff (h : AliasesAgree cfg db) {login : LoginAlias} {found : Option Alias}
    (hfound : memDBAliasByFactorsInTxn cfg db.groupAliases login.mountAccessor login.name =
      .ok found) (hgroup : group ∈ db.groups.rows) :
    (group.groupAlias.any fun row => Names cfg login row) = true ↔
      ∃ row, found = some row ∧ row.canonicalID = group.id := by
  rw [memDBAliasByFactorsInTxn] at hfound
  split at hfound
  · exact nomatch hfound
  split at hfound
  · exact nomatch hfound
  obtain rfl := Except.ok.inj hfound
  constructor
  · intro hany
    obtain ⟨row, hrow, hnames⟩ := (Option.any_eq_true _ _).mp hany
    obtain ⟨hlisted, hcanonical⟩ := h.listed group hgroup row hrow
    have hnames : Names cfg login row := of_decide_eq_true hnames
    cases hfind : db.groupAliases.rows.find? fun row =>
        row.mountAccessor = login.mountAccessor ∧ cfg.foldName row.name = cfg.foldName login.name with
    | none => exact absurd (decide_eq_true hnames) (List.find?_eq_none.mp hfind row hlisted)
    | some other =>
      have hother : Names cfg login other := by simpa [Names] using List.find?_some hfind
      have heq : other = row := h.distinct other (List.mem_of_find?_eq_some hfind) row hlisted
        (hother.1.trans hnames.1.symm) (hother.2.trans hnames.2.symm)
      exact ⟨other, rfl, heq ▸ hcanonical⟩
  · rintro ⟨row, hfind, hcanonical⟩
    have hnames : Names cfg login row := by simpa [Names] using List.find?_some hfind
    obtain ⟨owner, howner, hid, hrow⟩ := h.owned row (List.mem_of_find?_eq_some hfind)
    obtain rfl : owner = group := Table.eq_of_key howner hgroup (hid.trans hcanonical)
    rw [hrow]
    simpa using hnames

theorem mem_of_memDBGroupByAliasIDInTxn {login : LoginAlias} {owner : Group}
    (hfound : memDBAliasByFactorsInTxn cfg db.groupAliases login.mountAccessor login.name =
      .ok (some row)) (howner : memDBGroupByAliasIDInTxn db row.id = .ok (some owner)) :
    owner ∈ db.groups.rows ∧ owner.id = row.canonicalID := by
  have hrow : row ∈ db.groupAliases.rows := by
    rw [memDBAliasByFactorsInTxn] at hfound
    split at hfound
    · cases hfound
    split at hfound
    · cases hfound
    exact List.mem_of_find?_eq_some (Except.ok.inj hfound)
  obtain ⟨found, hlookup, howner⟩ := bind_eq_ok.mp howner
  rw [memDBAliasByIDInTxn] at hlookup
  split at hlookup
  · cases hlookup
  rw [Table.find_key_iff.mpr hrow] at hlookup
  obtain rfl := Except.ok.inj hlookup
  change memDBGroupByIDInTxn db row.canonicalID = .ok (some owner) at howner
  rw [memDBGroupByIDInTxn] at howner
  split at howner
  · cases howner
  exact Table.find_eq_some_iff.mp (Except.ok.inj howner)

theorem mappingGroups_spec (h : AliasesAgree cfg db) {newGroups : List Group}
    {valid : List LoginAlias} (hrun : mappingGroups cfg db logins = .ok (newGroups, valid)) :
    (∀ group ∈ newGroups, group ∈ db.groups.rows) ∧
      ∀ group ∈ db.groups.rows,
        newGroups.countP (·.id = group.id) = mentions cfg logins group := by
  induction logins generalizing newGroups valid with
  | nil =>
    obtain ⟨rfl, rfl⟩ := Prod.mk.inj (Except.ok.inj hrun)
    exact ⟨nofun, fun _ _ => rfl⟩
  | cons login logins ih =>
    obtain ⟨found, hfound, hrun⟩ := bind_eq_ok.mp hrun
    cases found with
    | none =>
      obtain ⟨hrows, hcounts⟩ := ih hrun
      refine ⟨hrows, fun group hgroup => ?_⟩
      have hnot : ¬ (group.groupAlias.any fun row => Names cfg login row) = true := by
        rw [mapping_iff h hfound hgroup]
        rintro ⟨row, hnone, -⟩
        exact nomatch hnone
      rw [mentions_cons, if_neg hnot, hcounts group hgroup]
      rfl
    | some row =>
      obtain ⟨owner, howner, hrun⟩ := bind_eq_ok.mp hrun
      cases owner with
      | none => exact nomatch hrun
      | some owner =>
        obtain ⟨⟨later, valid'⟩, hlater, hresult⟩ := bind_eq_ok.mp hrun
        obtain ⟨rfl, rfl⟩ := Prod.mk.inj (Except.ok.inj hresult)
        obtain ⟨hrows, hcounts⟩ := ih hlater
        obtain ⟨howner, hid⟩ := mem_of_memDBGroupByAliasIDInTxn hfound howner
        refine ⟨List.forall_mem_cons.mpr ⟨howner, hrows⟩, fun group hgroup => ?_⟩
        rw [mentions_cons, List.countP_cons, hcounts group hgroup]
        refine congrArg _ (if_congr ?_ rfl rfl)
        rw [mapping_iff h hfound hgroup, decide_eq_true_iff, hid]
        simp

def memberChange (cfg : Config) (entityID mountAccessor : GoString) (logins : List LoginAlias)
    (group : Group) : Option Group :=
  if (entityID ∉ group.memberEntityIDs ∧ 1 ≤ mentions cfg logins group) ∨
      2 ≤ mentions cfg logins group then addMember entityID group
  else if entityID ∈ group.memberEntityIDs ∧ mentions cfg logins group = 0 then
    removeMember mountAccessor entityID group
  else none

def refreshed (cfg : Config) (entityID mountAccessor : GoString) (logins : List LoginAlias)
    (group : Group) : Group :=
  ((memberChange cfg entityID mountAccessor logins group).map Group.placed).getD group

variable {result : Group}

theorem addMember_eq_some :
    addMember entityID group = some result ↔ group.type = .external ∧
      { group with memberEntityIDs := group.memberEntityIDs ++ [entityID] } = result := by
  rw [addMember]
  split
  next htype => simp [htype]
  next htype => simp [htype]

theorem removeMember_eq_some :
    removeMember mountAccessor entityID group = some result ↔
      (group.type = .external ∧ fromOtherMount mountAccessor group = false) ∧
        { group with memberEntityIDs := group.memberEntityIDs.erase entityID } = result := by
  rw [removeMember]
  split
  next htype => simp [htype]
  next htype => simp [htype]

theorem fromOtherMount_some (hrow : group.groupAlias = some row) :
    fromOtherMount mountAccessor group = true ↔
      mountAccessor ≠ [] ∧ row.mountAccessor ≠ mountAccessor := by
  simp [fromOtherMount, hrow]

theorem memberChange_cases
    (h : memberChange cfg entityID mountAccessor logins group = some result) :
    addMember entityID group = some result ∨
      removeMember mountAccessor entityID group = some result := by
  rw [memberChange] at h
  split at h
  · exact .inl h
  split at h
  · exact .inr h
  · exact nomatch h

theorem memberChange_id (h : memberChange cfg entityID mountAccessor logins group = some result) :
    result.id = group.id := by
  rcases memberChange_cases h with h | h
  · obtain ⟨-, rfl⟩ := addMember_eq_some.mp h
    rfl
  · obtain ⟨-, rfl⟩ := removeMember_eq_some.mp h
    rfl

variable {newGroups : List Group} {used : MapOrder Group}

theorem mem_memberships :
    group ∈ memberships db entityID ↔
      group ∈ db.groups.rows ∧ entityID ∈ group.memberEntityIDs ∧ group.type = .external := by
  rw [memberships, List.mem_filter]
  cases htype : group.type with
  | internal | external => simp

theorem mem_ids_iff (hcounts : ∀ group ∈ db.groups.rows,
      newGroups.countP (·.id = group.id) = mentions cfg logins group)
    (hgroup : group ∈ db.groups.rows) :
    group.id ∈ newGroups.map Group.id ↔ 1 ≤ mentions cfg logins group := by
  rw [← hcounts group hgroup, Nat.one_le_iff_ne_zero, Ne, List.countP_eq_zero]
  simp

theorem mem_changes_iff (hrows : ∀ group ∈ newGroups, group ∈ db.groups.rows)
    (hcounts : ∀ group ∈ db.groups.rows,
      newGroups.countP (·.id = group.id) = mentions cfg logins group) (result : Group) :
    result ∈ changes used entityID mountAccessor (memberships db entityID) newGroups ↔
      ∃ group ∈ db.groups.rows,
        memberChange cfg entityID mountAccessor logins group = some result := by
  have hnodup : ((memberships db entityID).map Group.id).Nodup :=
    db.groups.nodup.sublist (List.filter_sublist.map Group.id)
  have hsub : (diffLoop (memberships db entityID) newGroups).1.Sublist newGroups :=
    (diffLoop_sublists _ _).1
  have hdiff := diffGroups_eq used newGroups hnodup
  have hmember : ∀ group ∈ db.groups.rows, group.type = .external →
      (group.id ∈ (memberships db entityID).map Group.id ↔ entityID ∈ group.memberEntityIDs) := by
    intro group hgroup htype
    rw [List.mem_map]
    constructor
    · rintro ⟨other, hother, heq⟩
      obtain ⟨hin, hmember, -⟩ := mem_memberships.mp hother
      rwa [← Table.eq_of_key hin hgroup heq]
    · exact fun hmember => ⟨group, mem_memberships.mpr ⟨hgroup, hmember, htype⟩, rfl⟩
  have hnew : ∀ group ∈ db.groups.rows, group.type = .external →
      (group ∈ (diffGroups used (memberships db entityID) newGroups).new ↔
        (entityID ∉ group.memberEntityIDs ∧ 1 ≤ mentions cfg logins group) ∨
          2 ≤ mentions cfg logins group) := by
    intro group hgroup htype
    rw [← hmember group hgroup htype, ← mem_ids_iff hcounts hgroup, ← hcounts group hgroup,
      ← diffLoop_new, hdiff]
    refine ⟨List.mem_map_of_mem, fun hid => ?_⟩
    obtain ⟨other, hother, heq⟩ := List.mem_map.mp hid
    rwa [← Table.eq_of_key (hrows other (hsub.subset hother)) hgroup heq]
  have hgone : ∀ group ∈ db.groups.rows, group.type = .external →
      (group ∈ (diffGroups used (memberships db entityID) newGroups).deleted ↔
        entityID ∈ group.memberEntityIDs ∧ mentions cfg logins group = 0) := by
    intro group hgroup htype
    rw [mem_deleted_iff hnodup, mem_memberships, mem_ids_iff hcounts hgroup]
    simp [hgroup, htype]
  rw [changes, List.mem_append, List.mem_filterMap, List.mem_filterMap]
  constructor
  · rintro (⟨group, hin, hadd⟩ | ⟨group, hin, hremove⟩)
    · have hgroup : group ∈ db.groups.rows := by
        rw [hdiff] at hin
        exact hrows group (hsub.subset hin)
      have htype := (addMember_eq_some.mp hadd).1
      exact ⟨group, hgroup, by rw [memberChange, if_pos ((hnew group hgroup htype).mp hin), hadd]⟩
    have hgroup : group ∈ db.groups.rows :=
      (mem_memberships.mp ((mem_deleted_iff hnodup).mp hin).1).1
    have htype := (removeMember_eq_some.mp hremove).1.1
    have hcond := (hgone group hgroup htype).mp hin
    refine ⟨group, hgroup, ?_⟩
    rw [memberChange, if_neg (by omega), if_pos hcond, hremove]
  · rintro ⟨group, hgroup, hchange⟩
    rw [memberChange] at hchange
    split at hchange
    next hadd =>
      have htype := (addMember_eq_some.mp hchange).1
      exact .inl ⟨group, (hnew group hgroup htype).mpr hadd, hchange⟩
    next =>
      split at hchange
      next hremove =>
        have htype := (removeMember_eq_some.mp hchange).1.1
        exact .inr ⟨group, (hgone group hgroup htype).mpr hremove, hchange⟩
      next => cases hchange

theorem memberChange_internal (htype : group.type = .internal) :
    memberChange cfg entityID mountAccessor logins group = none := by
  simp [memberChange, addMember, removeMember, htype]

variable {n k : Nat}

section

variable (cfg entityID mountAccessor logins)

theorem refreshed_cases (group : Group) :
    refreshed cfg entityID mountAccessor logins group = group ∨
      ∃ members, refreshed cfg entityID mountAccessor logins group =
        { group with memberEntityIDs := members }.placed := by
  rw [refreshed]
  cases hchange : memberChange cfg entityID mountAccessor logins group with
  | none => exact .inl rfl
  | some result =>
    refine .inr ?_
    rcases memberChange_cases hchange with h | h
    · obtain ⟨-, rfl⟩ := addMember_eq_some.mp h
      exact ⟨_, rfl⟩
    · obtain ⟨-, rfl⟩ := removeMember_eq_some.mp h
      exact ⟨_, rfl⟩

variable (htype : group.type = .external) (hn : group.memberEntityIDs.count entityID = n)
  (hk : mentions cfg logins group = k)

include htype hn hk

/-- The three things that can happen to an external group, by how often it lists the entity and the
logins name it. -/
theorem refreshed_external :
    (((n = 0 ∧ 1 ≤ k) ∨ 2 ≤ k) ∧ refreshed cfg entityID mountAccessor logins group =
        { group with memberEntityIDs := group.memberEntityIDs ++ [entityID] }.placed) ∨
      ((1 ≤ n ∧ k = 0 ∧ fromOtherMount mountAccessor group = false) ∧
        refreshed cfg entityID mountAccessor logins group =
          { group with memberEntityIDs := group.memberEntityIDs.erase entityID }.placed) ∨
      (¬ ((n = 0 ∧ 1 ≤ k) ∨ 2 ≤ k) ∧
        ¬ (1 ≤ n ∧ k = 0 ∧ fromOtherMount mountAccessor group = false) ∧
        refreshed cfg entityID mountAccessor logins group = group) := by
  have hmem : entityID ∈ group.memberEntityIDs ↔ 1 ≤ n := by
    rw [← hn, Nat.one_le_iff_ne_zero, ← Nat.pos_iff_ne_zero, List.count_pos_iff]
  simp only [refreshed, memberChange, hk, hmem]
  by_cases hadd : (¬ 1 ≤ n ∧ 1 ≤ k) ∨ 2 ≤ k
  · refine .inl ⟨by omega, ?_⟩
    rw [if_pos hadd, addMember, if_pos htype]
    rfl
  rw [if_neg hadd]
  by_cases hremove : 1 ≤ n ∧ k = 0
  · rw [if_pos hremove, removeMember]
    cases hother : fromOtherMount mountAccessor group with
    | false => exact .inr (.inl ⟨⟨hremove.1, hremove.2, rfl⟩, by simp [htype]⟩)
    | true => exact .inr (.inr ⟨by omega, by simp, by simp⟩)
  · rw [if_neg hremove]
    exact .inr (.inr ⟨by omega, fun h => hremove ⟨h.1, h.2.1⟩, rfl⟩)

theorem count_refreshed :
    (refreshed cfg entityID mountAccessor logins group).memberEntityIDs.count entityID =
      if (n = 0 ∧ 1 ≤ k) ∨ 2 ≤ k then n + 1
      else if 1 ≤ n ∧ k = 0 ∧ fromOtherMount mountAccessor group = false then n - 1
      else n := by
  rcases refreshed_external cfg entityID mountAccessor logins htype hn hk with
    ⟨hadd, heq⟩ | ⟨hremove, heq⟩ | ⟨hadd, hremove, heq⟩
  · rw [if_pos hadd, heq]
    simp [Group.placed, hn]
  · rw [if_neg (by omega), if_pos hremove, heq]
    simp [Group.placed, hn]
  · rw [if_neg hadd, if_neg hremove, heq, hn]

theorem refreshed_eq_self_iff :
    refreshed cfg entityID mountAccessor logins group = group ↔
      ¬ ((n = 0 ∧ 1 ≤ k) ∨ 2 ≤ k) ∧
        ¬ (1 ≤ n ∧ k = 0 ∧ fromOtherMount mountAccessor group = false) := by
  have hplaced : ∀ members, { group with memberEntityIDs := members }.placed ≠ group :=
    fun members heq => absurd (congrArg Group.modifyIndex heq) (by simp [Group.placed])
  rcases refreshed_external cfg entityID mountAccessor logins htype hn hk with
    ⟨hadd, heq⟩ | ⟨hremove, heq⟩ | ⟨hadd, hremove, heq⟩
  · rw [heq]
    exact ⟨fun h => absurd h (hplaced _), fun h => absurd hadd h.1⟩
  · rw [heq]
    exact ⟨fun h => absurd h (hplaced _), fun h => absurd hremove h.2⟩
  · exact ⟨fun _ => ⟨hadd, hremove⟩, fun _ => heq⟩

end

theorem refreshed_same (group : Group) :
    (refreshed cfg entityID mountAccessor logins group).id = group.id ∧
      (refreshed cfg entityID mountAccessor logins group).type = group.type := by
  rcases refreshed_cases cfg entityID mountAccessor logins group with heq | ⟨members, heq⟩
  · rw [heq]
    exact ⟨rfl, rfl⟩
  · rw [heq]
    exact ⟨rfl, rfl⟩

theorem refreshed_alias {row : Alias} (group : Group)
    (hrow : (refreshed cfg entityID mountAccessor logins group).groupAlias = some row) :
    ∃ former, group.groupAlias = some former ∧ former.mountAccessor = row.mountAccessor ∧
      former.name = row.name := by
  rcases refreshed_cases cfg entityID mountAccessor logins group with heq | ⟨members, heq⟩
  · rw [heq] at hrow
    exact ⟨row, hrow, rfl, rfl⟩
  · rw [heq] at hrow
    obtain ⟨former, hformer, rfl⟩ := Option.map_eq_some_iff.mp hrow
    exact ⟨former, hformer, rfl, rfl⟩

theorem refreshed_alias_of {former : Alias}
    (hformer : group.groupAlias = some former) :
    ∃ row, (refreshed cfg entityID mountAccessor logins group).groupAlias = some row ∧
      row.mountAccessor = former.mountAccessor ∧ row.name = former.name := by
  rcases refreshed_cases cfg entityID mountAccessor logins group with heq | ⟨members, heq⟩
  · rw [heq]
    exact ⟨former, hformer, rfl, rfl⟩
  · rw [heq]
    exact ⟨former.placed, congrArg (Option.map Alias.placed) hformer, rfl, rfl⟩

/-- What the logins say and the group has them say: no entity in it twice in the end, and
nothing done to what is not of the mount. -/
def Mirrorable (cfg : Config) (entityID mountAccessor : GoString) (logins : List LoginAlias)
    (group : Group) : Prop :=
  let n := group.memberEntityIDs.count entityID
  let k := mentions cfg logins group
  match group.type, group.groupAlias with
  | .internal, _ => n ≤ 1
  | .external, none => n ≤ 2
  | .external, some row =>
    if row.mountAccessor = mountAccessor then n = 0 ∨ (n = 1 ∧ k ≤ 1)
    else (n = 0 ∧ k = 0) ∨ (n = 1 ∧ k ≤ 1 ∧ (k = 0 → mountAccessor ≠ []))

theorem mirrorable_iff (group : Group) :
    Mirrorable cfg entityID mountAccessor logins group ↔
      (group.type = .external → ∀ row, group.groupAlias = some row →
        row.mountAccessor = mountAccessor →
          (1 ≤ (refreshed cfg entityID mountAccessor logins group).memberEntityIDs.count entityID ↔
            1 ≤ mentions cfg logins group)) ∧
      (refreshed cfg entityID mountAccessor logins group).memberEntityIDs.count entityID ≤ 1 ∧
      (group.type = .internal ∨ (∃ row, group.groupAlias = some row ∧
        row.mountAccessor ≠ mountAccessor) →
          refreshed cfg entityID mountAccessor logins group = group) := by
  rw [Mirrorable]
  cases htype : group.type with
  | internal =>
    have hsame : refreshed cfg entityID mountAccessor logins group = group := by
      rw [refreshed, memberChange_internal htype]
      rfl
    simp [hsame]
  | external =>
    rw [refreshed_eq_self_iff cfg entityID mountAccessor logins htype rfl rfl,
      count_refreshed cfg entityID mountAccessor logins htype rfl rfl]
    generalize hk : mentions cfg logins group = k
    cases hrow : group.groupAlias with
    | none =>
      obtain rfl : 0 = k := by simpa [mentions, hrow] using hk
      have hhere : fromOtherMount mountAccessor group = false := by simp [fromOtherMount, hrow]
      simp only [hhere, reduceCtorEq, false_and, exists_false, or_false, false_imp_iff,
        implies_true, and_true, true_and, and_self]
      split_ifs
      · omega
      · omega
      · omega
    | some row =>
      by_cases hmount : row.mountAccessor = mountAccessor
      · have hhere : fromOtherMount mountAccessor group = false :=
          Bool.eq_false_iff.mpr fun h => ((fromOtherMount_some hrow).mp h).2 hmount
        simp only [hhere, reduceCtorEq, Option.some.injEq, forall_const, forall_eq',
          exists_eq_left', hmount, ne_eq, not_true_eq_false, or_false, false_imp_iff, and_true,
          if_true]
        split_ifs
        · omega
        · omega
        · omega
      simp only [reduceCtorEq, Option.some.injEq, forall_const, forall_eq', exists_eq_left',
        hmount, ne_eq, not_false_eq_true, or_true, false_imp_iff, true_and, if_false]
      by_cases hempty : mountAccessor = []
      · have hhere : fromOtherMount mountAccessor group = false :=
          Bool.eq_false_iff.mpr fun h => ((fromOtherMount_some hrow).mp h).1 hempty
        have hfalse : (¬ mountAccessor = []) ↔ False := ⟨fun h => h hempty, False.elim⟩
        simp only [hhere, hfalse, imp_false, and_true]
        split_ifs
        · omega
        · omega
        · omega
      have hhere : fromOtherMount mountAccessor group = true :=
        (fromOtherMount_some hrow).mpr ⟨hempty, hmount⟩
      simp only [hhere, hempty, not_false_eq_true, implies_true, reduceCtorEq, and_false,
        and_true, if_false]
      split_ifs
      · omega
      · omega

variable {db' : DB} {order order' : MapOrder Group} {answers : Nat → Option GoError}
variable {valid : List LoginAlias}

theorem find_of_refresh (h : AliasesAgree cfg db)
    (hrun : refreshExternalGroupMembershipsByEntityID cfg order order' answers db entityID logins
      mountAccessor = (.ok valid, db')) (id : GoString) :
    db'.groups.find id = (db.groups.find id).map (refreshed cfg entityID mountAccessor logins) := by
  obtain ⟨used, newGroups, valid', hmap, rfl⟩ := refresh_written hrun
  obtain ⟨hrows, hcounts⟩ := mappingGroups_spec h hmap
  exact find_written_of_change (fun _ _ => memberChange_id) (mem_changes_iff hrows hcounts) id

theorem find_of_refresh_nil
    (hrun : refreshExternalGroupMembershipsByEntityID cfg order order' answers db entityID []
      mountAccessor = (.ok valid, db')) (id : GoString) :
    db'.groups.find id = (db.groups.find id).map (refreshed cfg entityID mountAccessor []) := by
  obtain ⟨used, newGroups, valid', hmap, rfl⟩ := refresh_written hrun
  obtain ⟨rfl, rfl⟩ := Prod.mk.inj (Except.ok.inj hmap)
  exact find_written_of_change (fun _ _ => memberChange_id)
    (mem_changes_iff (by simp) fun _ _ => rfl) id

/-- The groups of the mount that list the entity are those that the logins name, no group
lists it twice, nothing else has changed, and a refresh with no logins ends what there is. -/
structure Mirrors (cfg : Config) (entityID mountAccessor : GoString) (logins : List LoginAlias)
    (db db' : DB) : Prop where
  member : ∀ group ∈ db'.groups.rows, group.type = .external →
    ∀ row, group.groupAlias = some row → row.mountAccessor = mountAccessor →
      (entityID ∈ group.memberEntityIDs ↔ ∃ login ∈ logins, Names cfg login row)
  once : ∀ group ∈ db'.groups.rows, group.memberEntityIDs.count entityID ≤ 1
  others : ∀ group ∈ db.groups.rows,
    group.type = .internal ∨
      (∃ row, group.groupAlias = some row ∧ row.mountAccessor ≠ mountAccessor) →
    db'.groups.find group.id = some group
  ends : ∀ order order' answers valid db'',
    refreshExternalGroupMembershipsByEntityID cfg order order' answers db' entityID []
      mountAccessor = (.ok valid, db'') →
    ∀ group ∈ db''.groups.rows, group.type = .external →
      ∀ row, group.groupAlias = some row → row.mountAccessor = mountAccessor →
        entityID ∉ group.memberEntityIDs

theorem mem_of_refreshed {logins : List LoginAlias}
    (hfind : ∀ id, db'.groups.find id =
      (db.groups.find id).map (refreshed cfg entityID mountAccessor logins)) (group : Group) :
    group ∈ db'.groups.rows ↔
      ∃ former ∈ db.groups.rows, refreshed cfg entityID mountAccessor logins former = group := by
  rw [← Table.find_key_iff, hfind, Option.map_eq_some_iff]
  constructor
  · rintro ⟨former, hformer, heq⟩
    exact ⟨former, Table.mem_of_find hformer, heq⟩
  rintro ⟨former, hformer, rfl⟩
  refine ⟨former, ?_, rfl⟩
  rw [(refreshed_same former).1, Table.find_key_iff]
  exact hformer

theorem ends_of_once
    (honce : ∀ group ∈ db.groups.rows, group.memberEntityIDs.count entityID ≤ 1)
    (hrun : refreshExternalGroupMembershipsByEntityID cfg order order' answers db entityID []
      mountAccessor = (.ok valid, db')) (hgroup : group ∈ db'.groups.rows)
    (htype : group.type = .external) {row : Alias} (hrow : group.groupAlias = some row)
    (hmount : row.mountAccessor = mountAccessor) : entityID ∉ group.memberEntityIDs := by
  obtain ⟨former, hformer, rfl⟩ := (mem_of_refreshed (find_of_refresh_nil hrun) group).mp hgroup
  obtain ⟨old, hold, haccessor, -⟩ := refreshed_alias former hrow
  have hhere : fromOtherMount mountAccessor former = false :=
    Bool.eq_false_iff.mpr fun h =>
      ((fromOtherMount_some hold).mp h).2 (haccessor.trans hmount)
  have hcount := count_refreshed cfg entityID mountAccessor []
    ((refreshed_same former).2.symm.trans htype) rfl rfl
  have hle := honce former hformer
  have hnone : mentions cfg [] former = 0 := rfl
  rw [hhere, hnone, if_neg (by omega)] at hcount
  simp only [and_true] at hcount
  rw [← List.count_eq_zero, hcount]
  split
  · omega
  · omega

theorem external_membership_mirrors_iff (h : AliasesAgree cfg db)
    (hrun : refreshExternalGroupMembershipsByEntityID cfg order order' answers db entityID logins
      mountAccessor = (.ok valid, db')) :
    Mirrors cfg entityID mountAccessor logins db db' ↔
      ∀ group ∈ db.groups.rows, Mirrorable cfg entityID mountAccessor logins group := by
  have hmem := mem_of_refreshed (find_of_refresh h hrun)
  constructor
  · intro hmirrors group hgroup
    have hin := (hmem _).mpr ⟨group, hgroup, rfl⟩
    refine (mirrorable_iff group).mpr ⟨?_, hmirrors.once _ hin, ?_⟩
    · intro htype row hrow hmount
      obtain ⟨row', hrow', haccessor, hname⟩ := refreshed_alias_of hrow
      have hiff := hmirrors.member _ hin ((refreshed_same group).2.trans htype) row' hrow'
        (haccessor.trans hmount)
      rw [← mentions_pos_iff hrow haccessor hname, ← List.count_pos_iff] at hiff
      exact hiff
    · intro hother
      have hsame := hmirrors.others group hgroup hother
      rw [find_of_refresh h hrun, Table.find_key_iff.mpr hgroup] at hsame
      exact Option.some.inj hsame
  · intro hall
    have honce : ∀ group ∈ db'.groups.rows, group.memberEntityIDs.count entityID ≤ 1 := by
      intro group hgroup
      obtain ⟨former, hformer, rfl⟩ := (hmem group).mp hgroup
      exact ((mirrorable_iff former).mp (hall former hformer)).2.1
    refine ⟨?_, honce, ?_, ?_⟩
    · intro group hgroup htype row hrow hmount
      obtain ⟨former, hformer, rfl⟩ := (hmem group).mp hgroup
      obtain ⟨old, hold, haccessor, hname⟩ := refreshed_alias former hrow
      have hiff := ((mirrorable_iff former).mp (hall former hformer)).1
        ((refreshed_same former).2.symm.trans htype) old hold (haccessor.trans hmount)
      rw [← mentions_pos_iff hold haccessor.symm hname.symm, ← List.count_pos_iff]
      exact hiff
    · intro group hgroup hother
      rw [find_of_refresh h hrun, Table.find_key_iff.mpr hgroup, Option.map_some,
        ((mirrorable_iff group).mp (hall group hgroup)).2.2 hother]
    · intro order order' answers valid db'' hrun group hgroup htype row hrow hmount
      exact ends_of_once honce hrun hgroup htype hrow hmount

def sampleRow : Alias :=
  { id := [2], canonicalID := [1], mountAccessor := [3], name := [4], namespaceID := [5] }

def sampleDB : DB where
  groups := Table.empty.upsert
    { id := [1], name := [6], memberEntityIDs := [[9]], groupAlias := some sampleRow,
      type := .external, namespaceID := [5] }
  groupAliases := Table.empty.upsert sampleRow

def sampleLogin : LoginAlias := ⟨[3], [4]⟩

theorem sampleDB_agrees : AliasesAgree Config.plain sampleDB where
  owned := by
    intro row hrow
    obtain rfl := List.mem_singleton.mp hrow
    exact ⟨_, List.mem_singleton_self _, rfl, rfl⟩
  listed := by
    intro group hgroup row hrow
    obtain rfl := List.mem_singleton.mp hgroup
    obtain rfl := Option.some.inj hrow
    exact ⟨List.mem_singleton_self _, rfl⟩
  distinct := by
    intro row hrow row' hrow' _ _
    exact (List.mem_singleton.mp hrow).trans (List.mem_singleton.mp hrow').symm

theorem single_login_mirrors :
    Mirrors Config.plain [9] [3] [sampleLogin] sampleDB
      (refreshExternalGroupMembershipsByEntityID Config.plain .asStored .asStored (fun _ => none)
        sampleDB [9] [sampleLogin] [3]).2 := by
  have hrun : refreshExternalGroupMembershipsByEntityID Config.plain .asStored .asStored
      (fun _ => none) sampleDB [9] [sampleLogin] [3] = (.ok [sampleLogin], _) := rfl
  refine (external_membership_mirrors_iff sampleDB_agrees hrun).mpr ?_
  intro group hgroup
  obtain rfl := List.mem_singleton.mp hgroup
  exact .inr ⟨by decide, by decide⟩

theorem repeated_login_outlives_removal :
    ∃ db' db'', AliasesAgree Config.plain sampleDB ∧
      refreshExternalGroupMembershipsByEntityID Config.plain .asStored .asStored (fun _ => none)
        sampleDB [9] [sampleLogin, sampleLogin] [3] = (.ok [sampleLogin, sampleLogin], db') ∧
      db'.groups.rows.map Group.memberEntityIDs = [[[9], [9]]] ∧
      refreshExternalGroupMembershipsByEntityID Config.plain .asStored .asStored (fun _ => none)
        db' [9] [] [3] = (.ok [], db'') ∧
      db''.groups.rows.map Group.memberEntityIDs = [[[9]]] ∧
      ¬ Mirrors Config.plain [9] [3] [sampleLogin, sampleLogin] sampleDB db' := by
  refine ⟨_, _, sampleDB_agrees, rfl, rfl, rfl, rfl, fun h => ?_⟩
  exact absurd (h.once _ (List.mem_singleton_self _)) (by decide)

end VaultProofs.MirroredLogins
