import VaultProofs.IdentityStores

/-!
The groups of an entity and the policies it has through them.
-/

namespace VaultProofs.GroupInheritance

open GoStrings GoMaps KeyedLists DepthFirst IdentityStores
open VaultEffects (GoError)

def parentLinks (db : DB) (group : Group) : List (Except GoError (Option Group)) :=
  group.parentGroupIDs.map (memDBGroupByIDInTxn db)

def collectGroupsReverseDFS (cfg : Config) (db : DB) :
    Nat → Group → List GoString × List Group →
      Option (Except GoError (List GoString × List Group)) :=
  walk Group.id (parentLinks db)
    (fun parentGroup _ => .message
      (ofString "failed to collect group at parent group ID " ++ cfg.quote parentGroup.id))
    (fun groups group => groups ++ [group])

abbrev PolicyMap := AList fun _ : GoString => List GoString

def addPolicies (policies : PolicyMap) (group : Group) : PolicyMap :=
  policies.insert group.namespaceID
    ((policies.lookup group.namespaceID).getD [] ++ group.policies)

def collectPoliciesReverseDFS (cfg : Config) (db : DB) :
    Nat → Group → List GoString × PolicyMap → Option (Except GoError (List GoString × PolicyMap)) :=
  walk Group.id (parentLinks db)
    (fun parentGroup _ => .message
      (ofString "failed to collect policies at parent group ID " ++ cfg.quote parentGroup.id))
    addPolicies

/-- One recursion for each group suffices. -/
def depth (db : DB) : Nat := db.groups.rows.length + 1

def starts (groups : List Group) : List (Except GoError (Option Group)) :=
  groups.map fun group => .ok (some group)

def groupPoliciesByEntityID (cfg : Config) (db : DB) (entityID : GoString) :
    Option (Except GoError PolicyMap) :=
  if entityID.isEmpty then some (.error (.message (ofString "empty entity ID")))
  else
    match memDBGroupsByMemberEntityIDInTxn db entityID false with
    | .error err => some (.error err)
    | .ok groups =>
      (follow (collectPoliciesReverseDFS cfg db (depth db)) (fun _ err => err) (starts groups)
        ([], ∅)).map (·.map Prod.snd)

def collectFrom (cfg : Config) (db : DB) (group : Group) (found : List GoString × List Group) :
    Option (Except GoError (List GoString × List Group)) :=
  (collectGroupsReverseDFS cfg db (depth db) group (found.1, [])).map
    (·.map fun (visited, gGroups) => (visited, found.2 ++ gGroups))

def groupsByEntityID (cfg : Config) (db : DB) (order order' : MapOrder Group)
    (entityID : GoString) : Option (Except GoError (List Group × List Group)) :=
  if entityID.isEmpty then some (.error (.message (ofString "empty entity ID")))
  else
    match memDBGroupsByMemberEntityIDInTxn db entityID false with
    | .error err => some (.error err)
    | .ok groups =>
      (follow (collectFrom cfg db) (fun _ err => err) (starts groups) ([], [])).map
        (·.bind fun (_, tGroups) =>
          let groupMap := tGroups.foldl (fun groupMap group => upsert Group.id group groupMap) []
          let diff := diffGroups order' groups (order.arrange groupMap)
          if diff.deleted.isEmpty then .ok (diff.unmodified, diff.new)
          else .error (.message (ofString "failed to diff group memberships")))

def Parent (db : DB) (group parent : Group) : Prop :=
  parent ∈ db.groups.rows ∧ parent.id ∈ group.parentGroupIDs ∧ parent.id ≠ []

def Lists (db : DB) (entityID : GoString) (group : Group) : Prop :=
  group ∈ db.groups.rows ∧ entityID ∈ group.memberEntityIDs

def Reached (db : DB) (entityID : GoString) (group : Group) : Prop :=
  ∃ start, Lists db entityID start ∧ Relation.ReflTransGen (Parent db) start group

variable {cfg : Config} {db : DB} {entityID : GoString}

theorem mem_parentLinks {group parent : Group} :
    .ok (some parent) ∈ parentLinks db group ↔ Parent db group parent := by
  rw [parentLinks, List.mem_map]
  constructor
  · rintro ⟨parentGroupID, hmem, hlookup⟩
    rw [memDBGroupByIDInTxn] at hlookup
    by_cases hempty : parentGroupID.isEmpty = true
    · rw [if_pos hempty] at hlookup
      exact nomatch hlookup
    · rw [if_neg hempty] at hlookup
      obtain ⟨hrow, rfl⟩ := Table.find_eq_some_iff.mp (Except.ok.inj hlookup)
      exact ⟨hrow, hmem, fun hnil => hempty (List.isEmpty_iff.mpr hnil)⟩
  rintro ⟨hrow, hmem, hne⟩
  refine ⟨parent.id, hmem, ?_⟩
  rw [memDBGroupByIDInTxn, List.isEmpty_eq_false_iff.mpr hne]
  exact congrArg Except.ok (Table.find_key_iff.mpr hrow)

variable {group : Group}

theorem error_mem_parentLinks :
    (∃ err, .error err ∈ parentLinks db group) ↔ [] ∈ group.parentGroupIDs := by
  simp only [parentLinks, List.mem_map]
  constructor
  · rintro ⟨err, parentGroupID, hmem, hlookup⟩
    cases parentGroupID with
    | nil => exact hmem
    | cons first rest => exact nomatch hlookup
  · exact fun hmem => ⟨_, [], hmem, rfl⟩

theorem reaches_iff {start group : Group} :
    Reaches (parentLinks db) start group ↔ Relation.ReflTransGen (Parent db) start group := by
  have hsame : (fun x y => .ok (some y) ∈ parentLinks db x) = Parent db := by
    funext group parent
    exact propext mem_parentLinks
  rw [Reaches, hsame]

theorem search_spec {σ : Type} {visit : Group → List GoString × σ →
      Option (Except GoError (List GoString × σ))} {note : σ → Group → σ} {s : σ}
    (hok : ∀ group st st', visit group st = some (.ok st') →
      ∃ vs, Visited Group.id (parentLinks db) note [group] vs st st')
    (herror : ∀ group st err, visit group st = some (.error err) →
      ∃ v err', Reaches (parentLinks db) group v ∧ .error err' ∈ parentLinks db v)
    (hends : ∀ group ∈ db.groups.rows, ∀ st, visit group st ≠ none) (groups : List Group)
    (hgroups : ∀ group, group ∈ groups ↔ Lists db entityID group) :
    ((¬ ∃ group, Reached db entityID group ∧ [] ∈ group.parentGroupIDs) →
      ∃ (vs : List Group) (seen : List GoString),
        follow visit (fun _ err => err) (starts groups) ([], s) =
          some (.ok (seen, vs.foldl note s)) ∧
        (vs.map Group.id).Nodup ∧ ∀ group, group ∈ vs ↔ Reached db entityID group) ∧
    ((∃ group, Reached db entityID group ∧ [] ∈ group.parentGroupIDs) →
      ∃ err, follow visit (fun _ err => err) (starts groups) ([], s) = some (.error err)) := by
  have htargets : targets (starts groups) = groups := by
    rw [targets, starts, List.filterMap_map]
    exact List.filterMap_some
  have hmem : ∀ {group}, .ok (some group) ∈ starts groups → Lists db entityID group :=
    fun h => (hgroups _).mp (htargets ▸ mem_targets.mpr h)
  have hsome : follow visit (fun _ err => err) (starts groups) ([], s) ≠ none := by
    refine follow_ends (fun _ => True) trivial (fun group hgroup st _ => ?_) fun _ _ _ _ _ => trivial
    exact hends group (hmem hgroup).1 st
  -- whatever is visited is exactly what is reached
  have hvisited : ∀ {vs st'}, Visited Group.id (parentLinks db) note groups vs ([], s) st' →
      ∀ group, group ∈ vs ↔ Reached db entityID group := by
    intro vs st' hvs group
    rw [hvs.mem_iff (· ∈ db.groups.rows) (fun root hroot => ((hgroups root).mp hroot).1)
      (fun _ _ parent hlink => (mem_parentLinks.mp hlink).1) fun _ _ => Table.eq_of_key]
    simp only [hgroups, reaches_iff, Reached]
  cases hfollow : follow visit (fun _ err => err) (starts groups) ([], s) with
  | none => exact absurd hfollow hsome
  | some result =>
    cases result with
    | error err =>
      refine ⟨fun hsound => absurd ?_ hsound, fun _ => ⟨err, rfl⟩⟩
      rcases follow_error hfollow with ⟨err', hlink⟩ | ⟨group, st, err', hgroup, hvisit⟩
      · obtain ⟨_, _, hnot⟩ := List.mem_map.mp hlink
        cases hnot
      · obtain ⟨v, err', hreaches, hlink⟩ := herror group st err' hvisit
        exact ⟨v, ⟨group, hmem hgroup, reaches_iff.mp hreaches⟩,
          error_mem_parentLinks.mp ⟨err', hlink⟩⟩
    | ok st' =>
      obtain ⟨⟨vs, hvs⟩, -⟩ := follow_ok hok hfollow
      rw [htargets] at hvs
      refine ⟨fun _ => ⟨vs, st'.1, ?_, hvs.nodup, hvisited hvs⟩, ?_⟩
      · rw [← hvs.noted]
      · rintro ⟨group, hreached, hempty⟩
        obtain ⟨err, hlink⟩ := error_mem_parentLinks.mpr hempty
        exact absurd hlink (hvs.sound ((hvisited hvs group).mpr hreached) err)

theorem depth_suffices {σ : Type} (relay : Group → GoError → GoError) (note : σ → Group → σ)
    (hgroup : group ∈ db.groups.rows) (st : List GoString × σ) :
    walk Group.id (parentLinks db) relay note (depth db) group st ≠ none := by
  refine walk_ends (db.groups.rows.map Group.id) (fun v hreaches => ?_) ?_
  · refine List.mem_map_of_mem ?_
    induction hreaches with
    | refl => exact hgroup
    | tail _ hlink _ => exact (mem_parentLinks.mp hlink).1
  have hle : unseen (db.groups.rows.map Group.id) st ≤ (db.groups.rows.map Group.id).length :=
    List.length_filter_le _ _
  rw [List.length_map] at hle
  exact Nat.lt_succ_of_le hle

theorem foldl_append_singleton (found vs : List Group) :
    vs.foldl (fun groups group => groups ++ [group]) found = found ++ vs := by
  induction vs generalizing found with
  | nil => simp
  | cons group vs ih => rw [List.foldl_cons, ih, List.append_assoc, List.singleton_append]

theorem collectFrom_ok {st st' : List GoString × List Group}
    (h : collectFrom cfg db group st = some (.ok st')) :
    ∃ vs, Visited Group.id (parentLinks db) (fun groups group => groups ++ [group]) [group] vs
      st st' := by
  obtain ⟨result, hwalk, hresult⟩ := Option.map_eq_some_iff.mp h
  cases result with
  | error err => exact nomatch hresult
  | ok found =>
    obtain rfl := Except.ok.inj hresult
    obtain ⟨vs, hvs⟩ := walk_ok hwalk
    refine ⟨vs, { hvs with noted := ?_ }⟩
    show st.2 ++ found.2 = _
    rw [hvs.noted, foldl_append_singleton, foldl_append_singleton, List.nil_append]

theorem collectFrom_error {st : List GoString × List Group} {err : GoError}
    (h : collectFrom cfg db group st = some (.error err)) :
    ∃ v err', Reaches (parentLinks db) group v ∧ .error err' ∈ parentLinks db v := by
  obtain ⟨result, hwalk, hresult⟩ := Option.map_eq_some_iff.mp h
  cases result with
  | error err' => exact walk_error hwalk
  | ok found => exact nomatch hresult

theorem collectFrom_ends (hgroup : group ∈ db.groups.rows) (st : List GoString × List Group) :
    collectFrom cfg db group st ≠ none := by
  rw [collectFrom, Ne, Option.map_eq_none_iff]
  exact depth_suffices _ _ hgroup _

theorem lookup_policies (vs : List Group) (policies : PolicyMap) (namespaceID : GoString) :
    ((vs.foldl addPolicies policies).lookup namespaceID).getD [] =
      (policies.lookup namespaceID).getD [] ++
        (vs.filter (·.namespaceID = namespaceID)).flatMap Group.policies := by
  induction vs generalizing policies with
  | nil => simp
  | cons group vs ih =>
    rw [List.foldl_cons, ih, addPolicies]
    by_cases hns : namespaceID = group.namespaceID
    · subst hns
      simp
    · rw [AList.lookup_insert_ne hns]
      simp [Ne.symm hns]

theorem split_found (order order' : MapOrder Group) {groups vs : List Group}
    (hnodup : (vs.map Group.id).Nodup) (hgroups : (groups.map Group.id).Nodup)
    (hsub : ∀ group ∈ groups, group ∈ vs) :
    ∃ direct inherited, diffGroups order' groups (order.arrange
        (vs.foldl (fun groupMap group => upsert Group.id group groupMap) [])) =
        ⟨inherited, [], direct⟩ ∧
      (direct ++ inherited).Perm vs ∧ (∀ group, group ∈ direct ↔ group ∈ groups) ∧
      ∀ group, group ∈ inherited ↔ group ∈ vs ∧ group ∉ groups := by
  have hmap : vs.foldl (fun groupMap group => upsert Group.id group groupMap) [] = vs :=
    foldl_upsert_eq hnodup
  rw [hmap]
  have hperm := order.perm vs
  generalize order.arrange vs = found at hperm
  have hinj : ∀ {group other}, group ∈ vs → other ∈ vs → group.id = other.id → group = other :=
    fun hgroup hother => List.inj_on_of_nodup_map hnodup hgroup hother
  have hids : ∀ id, id ∈ found.map Group.id ↔ id ∈ vs.map Group.id :=
    fun id => (hperm.map Group.id).mem_iff
  have hcount : ∀ id, ¬ 2 ≤ found.countP (·.id = id) := by
    intro id
    have hle := List.nodup_iff_count_le_one.mp ((hperm.map Group.id).nodup_iff.mpr hnodup) id
    have hsame : found.countP (·.id = id) = (found.map Group.id).count id := by
      rw [List.count, List.countP_map]
      exact List.countP_congr (by simp)
    omega
  -- a group of a part of what was found is given by its ID
  have hpart : ∀ {part : List Group}, part.Sublist found → ∀ group,
      group ∈ part ↔ group ∈ vs ∧ group.id ∈ part.map Group.id := by
    intro part hpart group
    constructor
    · exact fun hgroup => ⟨hperm.mem_iff.mp (hpart.subset hgroup), List.mem_map_of_mem hgroup⟩
    rintro ⟨hgroup, hid⟩
    obtain ⟨other, hother, heq⟩ := List.mem_map.mp hid
    rw [← hinj (hperm.mem_iff.mp (hpart.subset hother)) hgroup heq]
    exact hother
  have hdirect : ∀ group ∈ vs, group.id ∈ groups.map Group.id ↔ group ∈ groups := by
    intro group hgroup
    refine ⟨fun hid => ?_, List.mem_map_of_mem⟩
    obtain ⟨other, hother, heq⟩ := List.mem_map.mp hid
    rw [← hinj (hsub other hother) hgroup heq]
    exact hother
  obtain ⟨hnewSub, hsameSub⟩ := diffLoop_sublists groups found
  have hdeleted : order'.arrange (diffLoop groups found).2.2 = [] := by
    have hnone : (diffLoop groups found).2.2 = [] := by
      rw [diffLoop_rest, List.filter_eq_nil_iff]
      intro group hgroup
      have hin : group.id ∈ found.map Group.id :=
        (hids _).mpr (List.mem_map_of_mem (hsub group hgroup))
      simpa using hin
    rw [hnone]
    exact (order'.perm []).eq_nil
  have hsame : ∀ group, group ∈ (diffLoop groups found).2.1 ↔ group ∈ groups := by
    intro group
    rw [hpart hsameSub, diffLoop_unmodified, hids]
    constructor
    · rintro ⟨hgroup, hid, -⟩
      exact (hdirect group hgroup).mp hid
    · exact fun hgroup =>
        ⟨hsub group hgroup, List.mem_map_of_mem hgroup, List.mem_map_of_mem (hsub group hgroup)⟩
  have hnew : ∀ group, group ∈ (diffLoop groups found).1 ↔ group ∈ vs ∧ group ∉ groups := by
    intro group
    rw [hpart hnewSub, diffLoop_new, hids]
    constructor
    · rintro ⟨hgroup, ⟨hid, -⟩ | htwice⟩
      · exact ⟨hgroup, fun hin => hid ((hdirect group hgroup).mpr hin)⟩
      · exact absurd htwice (hcount group.id)
    · rintro ⟨hgroup, hnot⟩
      exact ⟨hgroup, .inl ⟨fun hid => hnot ((hdirect group hgroup).mp hid),
        List.mem_map_of_mem hgroup⟩⟩
  refine ⟨(diffLoop groups found).2.1, (diffLoop groups found).1, ?_, ?_, hsame, hnew⟩
  · rw [diffGroups_eq order' found hgroups, hdeleted]
  have hfound : found.Nodup := hperm.nodup_iff.mpr hnodup.of_map
  refine (List.perm_ext_iff_of_nodup ?_ hnodup.of_map).mpr fun group => ?_
  · refine List.nodup_append.mpr ⟨hfound.sublist hsameSub, hfound.sublist hnewSub, ?_⟩
    rintro group hgroup other hother rfl
    exact ((hnew group).mp hother).2 ((hsame group).mp hgroup)
  rw [List.mem_append, hsame, hnew]
  by_cases hgroup : group ∈ groups
  · simp [hgroup, hsub group hgroup]
  · simp [hgroup]

theorem memberGroups (hid : entityID ≠ []) :
    ∃ groups, memDBGroupsByMemberEntityIDInTxn db entityID false = .ok groups ∧
      (groups.map Group.id).Nodup ∧ ∀ group, group ∈ groups ↔ Lists db entityID group := by
  refine ⟨_, if_neg fun hempty => hid (List.isEmpty_iff.mp hempty), ?_, fun group => ?_⟩
  · exact db.groups.nodup.sublist (List.filter_sublist.map _)
  · simp [Lists]

theorem group_inheritance_is_reachability (cfg : Config) (db : DB) (order order' : MapOrder Group)
    (entityID : GoString) (hid : entityID ≠ []) :
    ((¬ ∃ group, Reached db entityID group ∧ [] ∈ group.parentGroupIDs) →
      ∃ direct inherited policies,
        groupsByEntityID cfg db order order' entityID = some (.ok (direct, inherited)) ∧
        groupPoliciesByEntityID cfg db entityID = some (.ok policies) ∧
        ((direct ++ inherited).map Group.id).Nodup ∧
        (∀ group, group ∈ direct ↔ Lists db entityID group) ∧
        (∀ group, group ∈ inherited ↔ Reached db entityID group ∧ ¬ Lists db entityID group) ∧
        ∀ namespaceID, ((policies.lookup namespaceID).getD []).Perm
          (((direct ++ inherited).filter (·.namespaceID = namespaceID)).flatMap Group.policies)) ∧
    ((∃ group, Reached db entityID group ∧ [] ∈ group.parentGroupIDs) →
      ∃ err err', groupsByEntityID cfg db order order' entityID = some (.error err) ∧
        groupPoliciesByEntityID cfg db entityID = some (.error err')) := by
  obtain ⟨groups, hgroups, hnodup, hmem⟩ := @memberGroups db entityID hid
  have hnonempty : entityID.isEmpty = false := List.isEmpty_eq_false_iff.mpr hid
  have hlisted := @search_spec db entityID (List Group) (collectFrom cfg db)
    (fun groups group => groups ++ [group]) [] (fun _ _ _ => collectFrom_ok)
    (fun _ _ _ => collectFrom_error) (fun _ hgroup => collectFrom_ends hgroup) groups hmem
  have hpolicies := @search_spec db entityID PolicyMap
    (collectPoliciesReverseDFS cfg db (depth db)) addPolicies ∅ (fun _ _ _ => walk_ok)
    (fun _ _ _ => walk_error) (fun _ hgroup => depth_suffices _ _ hgroup) groups hmem
  rw [groupsByEntityID, groupPoliciesByEntityID, hnonempty, hgroups]
  constructor
  · intro hsound
    obtain ⟨vs, seen, hrun, hvs, hreached⟩ := hlisted.1 hsound
    obtain ⟨vs', seen', hrun', hvs', hreached'⟩ := hpolicies.1 hsound
    rw [foldl_append_singleton] at hrun
    have hsub : ∀ group ∈ groups, group ∈ vs := fun group hgroup =>
      (hreached group).mpr ⟨group, (hmem group).mp hgroup, .refl⟩
    obtain ⟨direct, inherited, hdiff, hperm, hdirect, hinherited⟩ :=
      split_found order order' hvs hnodup hsub
    have hperm' : vs'.Perm (direct ++ inherited) := by
      refine List.Perm.trans ?_ hperm.symm
      refine (List.perm_ext_iff_of_nodup hvs'.of_map hvs.of_map).mpr fun group => ?_
      rw [hreached, hreached']
    refine ⟨direct, inherited, vs'.foldl addPolicies ∅, ?_, ?_, ?_, fun group => ?_,
      fun group => ?_, fun namespaceID => ?_⟩
    · simp [hrun, Except.bind, hdiff]
    · simp [hrun', Except.map]
    · exact (hperm.map Group.id).nodup_iff.mpr hvs
    · rw [hdirect, hmem]
    · rw [hinherited, hreached, hmem]
    · rw [lookup_policies]
      exact (hperm'.filter _).flatMap_right _
  · intro hempty
    obtain ⟨err, hrun⟩ := hlisted.2 hempty
    obtain ⟨err', hrun'⟩ := hpolicies.2 hempty
    refine ⟨err, err', ?_, ?_⟩
    · simp [hrun, Except.bind]
    · simp [hrun', Except.map]

def diamond : DB where
  groups := ⟨[
    { id := [1], name := [1], type := .internal, namespaceID := [0], policies := [[7]],
      parentGroupIDs := [[2], [3]], memberEntityIDs := [[9]] },
    { id := [2], name := [2], type := .internal, namespaceID := [0], policies := [[8]],
      parentGroupIDs := [[4]] },
    { id := [3], name := [3], type := .external, namespaceID := [0], parentGroupIDs := [[4]] },
    { id := [4], name := [4], type := .internal, namespaceID := [5], policies := [[6]],
      parentGroupIDs := [[1], [10]] }], by decide⟩

theorem Reached.mem_rows (h : Reached db entityID group) : group ∈ db.groups.rows := by
  obtain ⟨start, hstart, hreaches⟩ := h
  induction hreaches with
  | refl => exact hstart.1
  | tail _ hparent _ => exact hparent.1

theorem diamond_inherited :
    ∃ direct inherited policies,
      groupsByEntityID .plain diamond .asStored .asStored [9] = some (.ok (direct, inherited)) ∧
      groupPoliciesByEntityID .plain diamond [9] = some (.ok policies) ∧
      ((direct ++ inherited).map Group.id).Nodup ∧
      (∀ group, group ∈ direct ↔ Lists diamond [9] group) ∧
      (∀ group, group ∈ inherited ↔ Reached diamond [9] group ∧ ¬ Lists diamond [9] group) ∧
      ∀ namespaceID, ((policies.lookup namespaceID).getD []).Perm
        (((direct ++ inherited).filter (·.namespaceID = namespaceID)).flatMap Group.policies) := by
  refine (group_inheritance_is_reachability .plain diamond .asStored .asStored [9] (by decide)).1 ?_
  rintro ⟨group, hreached, hempty⟩
  have hnone : ∀ group ∈ diamond.groups.rows, [] ∉ group.parentGroupIDs := by decide
  exact hnone group hreached.mem_rows hempty

end VaultProofs.GroupInheritance
