import Mathlib.Data.Countable.Basic
import Mathlib.Data.List.Induction
import Mathlib.Logic.Equiv.List
import VaultProofs.TableFolds
import VaultProofs.StoragePackers

/-!
The storage packer is a map.
-/

namespace VaultProofs.PackedItems

open GoStrings GoDecimals GoMaps KeyedLists TableFolds EffectPrograms ProgramOutcomes
open PhysicalStores StoragePackers
open VaultEffects (GoError)

variable {s : StoragePacker} {view : Store} {α β : Type}

theorem runHealthy_bind_ok {x : PackerM α} {f : α → PackerM β} {value : α} {view' : Store}
    (h : runHealthy x view = (.ok value, view')) :
    runHealthy (x >>= f) view = runHealthy (f value) view' := by
  have hrun : (x >>= f).run = x.run >>= ExceptT.bindCont f := rfl
  rw [runHealthy, hrun, Prog.run_bind]
  rw [runHealthy] at h
  rw [h]
  rfl

theorem runHealthy_mapError {x : PackerM α} {wrap : GoError → GoError} {value : α} {view' : Store}
    (h : runHealthy x view = (.ok value, view')) :
    runHealthy (mapError wrap x) view = (.ok value, view') := by
  rw [runHealthy, mapError, ExceptT.run_mk, Prog.run_bind]
  rw [runHealthy] at h
  rw [h]
  rfl

abbrev Table := GoString → Option Bucket

def encode (s : StoragePacker) (bucket : Bucket) : GoString :=
  s.formats.compress (s.formats.marshal bucket)

def Stored (s : StoragePacker) (table : Table) (view : Store) : Prop :=
  ∀ key, view key = (table key).map (encode s)

variable {table : Table}

theorem fetchBucket_run (h : Stored s table view) (read decompress decode : String)
    (key : GoString) :
    runHealthy (s.fetchBucket read decompress decode key) view = (.ok (table key), view) := by
  have hget : runHealthy (mapError (.wrapped read) (viewGet key)) view =
      (.ok (view.get key), view) := runHealthy_mapError rfl
  rw [StoragePacker.fetchBucket, runHealthy_bind_ok hget, Store.get, h key]
  cases table key with
  | none => rfl
  | some bucket =>
    have hdecompress : runHealthy (resume ((s.formats.decompress (encode s bucket)).mapError
        (.wrapped decompress))) view = (.ok (s.formats.marshal bucket, false), view) := by
      rw [encode, s.formats.decompress_compress]
      rfl
    have hunmarshal : runHealthy (resume ((s.formats.unmarshal (s.formats.marshal bucket)).mapError
        (.wrapped decode))) view = (.ok bucket, view) := by
      rw [s.formats.unmarshal_marshal]
      rfl
    exact (runHealthy_bind_ok hdecompress).trans (runHealthy_bind_ok hunmarshal)

theorem bucketKey_ne_nil (s : StoragePacker) (id : GoString) : s.bucketKey id ≠ [] := by
  intro h
  have hempty : itoa (s.firstHashByte id).toNat = [] := (List.append_eq_nil_iff.mp h).2
  have hatoi := atoi_itoa (Int.natCast_nonneg (s.firstHashByte id).toNat)
  rw [hempty] at hatoi
  exact nomatch hatoi

theorem putBucket_run (h : Stored s table view) (bucket : Bucket) {id : GoString}
    (hkey : bucket.key = s.bucketKey id) :
    ∃ view', runHealthy (s.putBucket bucket) view = (.ok (), view') ∧
      Stored s (Function.update table bucket.key (some bucket)) view' := by
  have hne : bucket.key.isEmpty = false := by
    rw [hkey, List.isEmpty_eq_false_iff]
    exact bucketKey_ne_nil s id
  have hstart : hasPrefix bucket.key s.viewPrefix = true := by
    rw [hkey, hasPrefix_iff]
    exact List.prefix_append _ _
  refine ⟨view.put ⟨bucket.key, encode s bucket⟩, ?_, fun key => ?_⟩
  · rw [StoragePacker.putBucket, hne, hstart]
    exact runHealthy_mapError rfl
  by_cases hkey : key = bucket.key
  · rw [hkey, Store.put, Function.update_self, Function.update_self]
    rfl
  · rw [Store.put, Function.update_of_ne hkey, Function.update_of_ne hkey]
    exact h key

def contents (table : Table) (key : GoString) : List Item :=
  ((table key).map Bucket.items).getD []

/-- Every bucket is stored under its own key, has at most one item for an ID, and its items belong
to it. -/
def WellPlaced (s : StoragePacker) (table : Table) : Prop :=
  ∀ key bucket, table key = some bucket → bucket.key = key ∧ (bucket.items.map Item.id).Nodup ∧
    ∀ item ∈ bucket.items, s.bucketKey item.id = key

def find (s : StoragePacker) (table : Table) (id : GoString) : Option Item :=
  (contents table (s.bucketKey id)).find? fun item => item.id = id

/-- The storage holds well placed buckets with the given items. -/
def Packed (s : StoragePacker) (view : Store) (items : GoString → Option Item) : Prop :=
  ∃ table, Stored s table view ∧ WellPlaced s table ∧ ∀ id, find s table id = items id

variable {items items' : GoString → Option Item}

theorem WellPlaced.nodup (h : WellPlaced s table) (key : GoString) :
    ((contents table key).map Item.id).Nodup := by
  rw [contents]
  cases hbucket : table key with
  | none => exact List.nodup_nil
  | some bucket => exact (h key bucket hbucket).2.1

theorem WellPlaced.belongs (h : WellPlaced s table) {key : GoString} {item : Item}
    (hitem : item ∈ contents table key) : s.bucketKey item.id = key := by
  rw [contents] at hitem
  cases hbucket : table key with
  | none =>
    rw [hbucket] at hitem
    exact nomatch hitem
  | some bucket =>
    rw [hbucket] at hitem
    exact (h key bucket hbucket).2.2 item hitem

theorem putBucket_packed (hstored : Stored s table view) (hplaced : WellPlaced s table)
    (hfind : ∀ id, find s table id = items id) (id : GoString) (written : List Item)
    (hnodup : (written.map Item.id).Nodup)
    (hbelongs : ∀ item ∈ written, s.bucketKey item.id = s.bucketKey id)
    (hitems : ∀ other, items' other = if s.bucketKey other = s.bucketKey id then
      written.find? (fun item => item.id = other) else items other) :
    ∃ view', runHealthy (s.putBucket ⟨s.bucketKey id, written⟩) view = (.ok (), view') ∧
      Packed s view' items' := by
  obtain ⟨view', hrun, hstored'⟩ := putBucket_run hstored ⟨s.bucketKey id, written⟩ rfl
  refine ⟨view', hrun, _, hstored', fun key bucket hbucket => ?_, fun other => ?_⟩
  · by_cases hkey : key = s.bucketKey id
    · rw [hkey, Function.update_self] at hbucket
      obtain rfl := Option.some.inj hbucket
      exact ⟨hkey.symm, hnodup, hkey ▸ hbelongs⟩
    · rw [Function.update_of_ne hkey] at hbucket
      exact hplaced key bucket hbucket
  rw [hitems, find, contents]
  by_cases hkey : s.bucketKey other = s.bucketKey id
  · rw [if_pos hkey, hkey, Function.update_self]
    rfl
  · rw [if_neg hkey, Function.update_of_ne hkey]
    exact hfind other

section

variable (h : Packed s view items)

include h

theorem getItem_run {id : GoString} (hid : id ≠ []) :
    runHealthy (s.getItem id) view = (.ok (items id), view) := by
  obtain ⟨table, hstored, -, hfind⟩ := h
  have hget : runHealthy (mapError (.wrapped "failed to read packed storage item")
      (s.getBucket (s.bucketKey id))) view = (.ok (table (s.bucketKey id)), view) := by
    apply runHealthy_mapError
    have hne : (s.bucketKey id).isEmpty = false := by
      rw [List.isEmpty_eq_false_iff]
      exact bucketKey_ne_nil s id
    rw [StoragePacker.getBucket, hne]
    exact fetchBucket_run hstored _ _ _ _
  rw [StoragePacker.getItem, List.isEmpty_eq_false_iff.mpr hid, ← hfind, find, contents]
  refine (runHealthy_bind_ok hget).trans ?_
  cases table (s.bucketKey id) with
  | none | some bucket => rfl

theorem putItem_run {item : Item} (hid : item.id ≠ []) :
    ∃ view', runHealthy (s.putItem item) view = (.ok (), view') ∧
      Packed s view' (Function.update items item.id (some item)) := by
  obtain ⟨table, hstored, hplaced, hfind⟩ := h
  have hnonempty : item.id.isEmpty = false := List.isEmpty_eq_false_iff.mpr hid
  have hput : runHealthy (s.putItem item) view = runHealthy (s.putBucket
      ⟨s.bucketKey item.id, upsert Item.id item (contents table (s.bucketKey item.id))⟩) view := by
    rw [StoragePacker.putItem, hnonempty, contents]
    refine (runHealthy_bind_ok (fetchBucket_run hstored _ _ _ _)).trans ?_
    cases hbucket : table (s.bucketKey item.id) with
    | none => rfl
    | some bucket =>
      have hupsert : runHealthy (mapError
          (.wrapped "failed to update entry in packed storage entry")
          (resume (bucket.upsert item))) view =
            (.ok { bucket with items := upsert Item.id item bucket.items }, view) := by
        apply runHealthy_mapError
        rw [Bucket.upsert, hnonempty]
        rfl
      refine (runHealthy_bind_ok hupsert).trans ?_
      rw [(hplaced _ bucket hbucket).1]
      rfl
  rw [hput]
  refine putBucket_packed hstored hplaced hfind item.id _ (nodup_upsert (hplaced.nodup _)) ?_ ?_
  · intro other hother
    rcases mem_upsert hother with rfl | hother
    · rfl
    · exact hplaced.belongs hother
  intro id
  rw [find?_upsert]
  by_cases heq : id = item.id
  · rw [heq, Function.update_self, if_pos rfl, if_pos rfl]
  rw [Function.update_of_ne heq, if_neg (Ne.symm heq)]
  by_cases hkey : s.bucketKey id = s.bucketKey item.id
  · rw [if_pos hkey, ← hfind, find, hkey]
  · rw [if_neg hkey]

theorem deleteFromBucket_run (itemsToRemove : List GoString) (id : GoString) :
    ∃ view', runHealthy (s.deleteFromBucket itemsToRemove (s.bucketKey id)) view = (.ok (), view') ∧
      Packed s view' fun other =>
        if s.bucketKey other = s.bucketKey id ∧ other ∈ itemsToRemove then none else items other := by
  obtain ⟨table, hstored, hplaced, hfind⟩ := h
  have hfetch := fetchBucket_run hstored "failed to read packed storage value"
    "failed to decompress packed storage value" "failed decoding packed storage entry" (s.bucketKey id)
  rw [StoragePacker.deleteFromBucket, runHealthy_bind_ok hfetch]
  have hitems : ∀ other, s.bucketKey other = s.bucketKey id →
      items other = (contents table (s.bucketKey id)).find? fun item => item.id = other := by
    intro other hkey
    rw [← hfind, find, hkey]
  cases hbucket : table (s.bucketKey id) with
  | none =>
    refine ⟨view, rfl, table, hstored, hplaced, fun other => ?_⟩
    show find s table other = if _ then none else items other
    by_cases hgone : s.bucketKey other = s.bucketKey id ∧ other ∈ itemsToRemove
    · rw [if_pos hgone, hfind, hitems other hgone.1, contents, hbucket]
      rfl
    · rw [if_neg hgone, hfind]
  | some bucket =>
    have hkept : bucket.items = contents table (s.bucketKey id) := by
      rw [contents, hbucket]
      rfl
    have hdeleted : deleteFrom (fun item => item.id ∈ itemsToRemove) bucket.items 0 =
        (contents table (s.bucketKey id)).filter fun item => !decide (item.id ∈ itemsToRemove) := by
      rw [deleteFrom_eq, hkept]
      rfl
    simp only [(hplaced _ bucket hbucket).1, hdeleted]
    refine putBucket_packed hstored hplaced hfind id _ ?_ ?_ ?_
    · exact (hplaced.nodup _).sublist (List.filter_sublist.map _)
    · exact fun item hitem => hplaced.belongs (List.mem_of_mem_filter hitem)
    intro other
    rw [find?_filter_keys _ (fun id => !decide (id ∈ itemsToRemove))]
    by_cases hkey : s.bucketKey other = s.bucketKey id
    · rw [if_pos hkey, ← hitems other hkey]
      by_cases hmem : other ∈ itemsToRemove
      · simp [hkey, hmem]
      · simp [hmem]
    · rw [if_neg hkey, if_neg fun hgone => hkey hgone.1]

theorem deleteFromBuckets_run (byBucket : ByBucket) {keys : List GoString}
    (hkeys : ∀ key ∈ keys, ∃ id, key = s.bucketKey id) :
    ∃ view', runHealthy (s.deleteFromBuckets byBucket keys) view = (.ok (), view') ∧
      Packed s view' fun id =>
        if s.bucketKey id ∈ keys ∧ id ∈ (byBucket.lookup (s.bucketKey id)).getD [] then none
        else items id := by
  induction keys generalizing view items with
  | nil => exact ⟨view, rfl, by simpa using h⟩
  | cons key keys ih =>
    obtain ⟨⟨id, rfl⟩, hlater⟩ := List.forall_mem_cons.mp hkeys
    obtain ⟨view₁, hfirst, hpacked₁⟩ :=
      deleteFromBucket_run h ((byBucket.lookup (s.bucketKey id)).getD []) id
    obtain ⟨view₂, hrest, hpacked₂⟩ := ih hpacked₁ hlater
    refine ⟨view₂, (runHealthy_bind_ok hfirst).trans hrest, ?_⟩
    have hsame : (fun other => if s.bucketKey other ∈ s.bucketKey id :: keys ∧
          other ∈ (byBucket.lookup (s.bucketKey other)).getD [] then none else items other) =
        fun other => if s.bucketKey other ∈ keys ∧
          other ∈ (byBucket.lookup (s.bucketKey other)).getD [] then none
          else if s.bucketKey other = s.bucketKey id ∧
            other ∈ (byBucket.lookup (s.bucketKey id)).getD [] then none else items other := by
      funext other
      by_cases hkey : s.bucketKey other = s.bucketKey id
      · rw [hkey]
        by_cases hmem : other ∈ (byBucket.lookup (s.bucketKey id)).getD []
        · simp [hmem]
        · simp [hmem]
      · simp [hkey]
    rw [hsame]
    exact hpacked₂

omit h in
theorem lookup_byBucket (s : StoragePacker) (ids : List GoString) (key : GoString) :
    (∀ id, id ∈ ((ids.foldl s.addToBucket ∅).lookup key).getD [] ↔
      id ∈ ids ∧ s.bucketKey id = key) ∧
    (((ids.foldl s.addToBucket ∅).lookup key).isSome → ∃ id, key = s.bucketKey id) := by
  have hputs : PutsAt (fun (byBucket : ByBucket) key => byBucket.lookup key) s.bucketKey
      (fun found id => some (id :: found.getD [])) s.addToBucket := by
    intro byBucket id key
    by_cases hkey : s.bucketKey id = key
    · subst hkey
      rw [if_pos rfl]
      exact AList.lookup_insert byBucket
    · rw [if_neg hkey]
      exact AList.lookup_insert_ne (Ne.symm hkey)
  have gathered : ∀ (found : Option (List GoString)) (ids : List GoString),
      (∀ id, id ∈ (ids.foldl (fun found id => some (id :: found.getD [])) found).getD [] ↔
        id ∈ ids ∨ id ∈ found.getD []) := by
    intro found ids
    induction ids generalizing found with
    | nil => simp
    | cons first ids ih =>
      intro id
      rw [List.foldl_cons, ih]
      simp [or_assoc, or_left_comm]
  have hlookup : (ids.foldl s.addToBucket ∅).lookup key =
      (ids.filter (s.bucketKey · = key)).foldl (fun found id => some (id :: found.getD [])) none :=
    hputs.look_foldl ids ∅ key
  constructor
  · intro id
    rw [hlookup, gathered]
    simp
  intro hsome
  rw [hlookup] at hsome
  cases hfilter : ids.filter (s.bucketKey · = key) with
  | nil =>
    rw [hfilter] at hsome
    exact nomatch hsome
  | cons id rest =>
    have hmem : id ∈ ids.filter (s.bucketKey · = key) := hfilter ▸ (.head _)
    exact ⟨id, (by simpa using (List.mem_filter.mp hmem).2 : s.bucketKey id = key).symm⟩

theorem deleteMultipleItems_run (order : MapOrder GoString) (ids : List GoString) :
    ∃ view', runHealthy (s.deleteMultipleItems order ids) view = (.ok (), view') ∧
      Packed s view' fun id => if id ∈ ids then none else items id := by
  rw [StoragePacker.deleteMultipleItems]
  cases hids : ids.isEmpty with
  | true =>
    obtain rfl := List.isEmpty_iff.mp hids
    exact ⟨view, rfl, by simpa using h⟩
  | false =>
    have hmem : ∀ key, key ∈ order.arrange (ids.foldl s.addToBucket ∅).keys ↔
        ((ids.foldl s.addToBucket ∅).lookup key).isSome = true := fun key => by
      rw [(order.perm _).mem_iff, ← AList.mem_keys, AList.lookup_isSome]
    obtain ⟨view', hrun, hpacked⟩ := deleteFromBuckets_run h (ids.foldl s.addToBucket ∅)
      fun key hkey => (lookup_byBucket s ids key).2 ((hmem key).mp hkey)
    refine ⟨view', hrun, ?_⟩
    have hsame : (fun id => if id ∈ ids then none else items id) = fun id =>
        if s.bucketKey id ∈ order.arrange (ids.foldl s.addToBucket ∅).keys ∧
          id ∈ ((ids.foldl s.addToBucket ∅).lookup (s.bucketKey id)).getD [] then none
        else items id := by
      funext id
      have hgone := (lookup_byBucket s ids (s.bucketKey id)).1 id
      by_cases hid : id ∈ ids
      · have hin := hgone.mpr ⟨hid, rfl⟩
        have hsome : ((ids.foldl s.addToBucket ∅).lookup (s.bucketKey id)).isSome = true := by
          cases hlookup : (ids.foldl s.addToBucket ∅).lookup (s.bucketKey id) with
          | none =>
            rw [hlookup] at hin
            exact nomatch hin
          | some found => rfl
        rw [if_pos hid, if_pos ⟨(hmem _).mpr hsome, hin⟩]
      · rw [if_neg hid, if_neg fun hboth => hid (hgone.mp hboth.2).1]
    rw [hsame]
    exact hpacked

def touched (id : GoString) : PackerCall → Option (Option Item)
  | .putItem item => if item.id = id ∧ id ≠ [] then some (some item) else none
  | .deleteItem _ itemID => if id = itemID then some none else none
  | .deleteMultipleItems _ itemIDs => if id ∈ itemIDs then some none else none

def lastItem (calls : List PackerCall) (id : GoString) : Option Item :=
  (calls.reverse.findSome? (touched id)).getD none

theorem call_run (call : PackerCall) :
    Packed s (runHealthy (s.call call) view).2 fun id => (touched id call).getD (items id) := by
  cases call with
  | putItem item =>
    by_cases hid : item.id = []
    · have hrefused : (runHealthy (s.call (.putItem item)) view).2 = view := by
        rw [StoragePacker.call, StoragePacker.putItem, List.isEmpty_iff.mpr hid]
        rfl
      have hsame : (fun id => (touched id (.putItem item)).getD (items id)) = items := by
        funext id
        have hnot : ¬ (item.id = id ∧ id ≠ []) := fun hboth => hboth.2 (hboth.1 ▸ hid)
        rw [touched, if_neg hnot]
        rfl
      rw [hrefused, hsame]
      exact h
    obtain ⟨view', hrun, hpacked⟩ := putItem_run h hid
    have hsame : (fun id => (touched id (.putItem item)).getD (items id)) =
        Function.update items item.id (some item) := by
      funext id
      by_cases heq : id = item.id
      · rw [heq, Function.update_self, touched, if_pos ⟨rfl, hid⟩]
        rfl
      · rw [Function.update_of_ne heq, touched, if_neg fun hboth => heq hboth.1.symm]
        rfl
    rw [hsame, StoragePacker.call, hrun]
    exact hpacked
  | deleteItem order itemID =>
    obtain ⟨view', hrun, hpacked⟩ := deleteMultipleItems_run h order [itemID]
    have hsame : (fun id => (touched id (.deleteItem order itemID)).getD (items id)) =
        fun id => if id ∈ [itemID] then none else items id := by
      funext id
      by_cases heq : id = itemID
      · simp [touched, heq]
      · simp [touched, heq]
    rw [hsame, StoragePacker.call, StoragePacker.deleteItem, hrun]
    exact hpacked
  | deleteMultipleItems order itemIDs =>
    obtain ⟨view', hrun, hpacked⟩ := deleteMultipleItems_run h order itemIDs
    have hsame : (fun id => (touched id (.deleteMultipleItems order itemIDs)).getD (items id)) =
        fun id => if id ∈ itemIDs then none else items id := by
      funext id
      by_cases hmem : id ∈ itemIDs
      · simp [touched, hmem]
      · simp [touched, hmem]
    rw [hsame, StoragePacker.call, hrun]
    exact hpacked

end

theorem lastItem_append (calls : List PackerCall) (call : PackerCall) (id : GoString) :
    lastItem (calls ++ [call]) id = (touched id call).getD (lastItem calls id) := by
  rw [lastItem, List.reverse_append, List.reverse_singleton, List.singleton_append,
    List.findSome?_cons]
  cases touched id call with
  | none | some item => rfl

theorem callAll_run (s : StoragePacker) (calls : List PackerCall) :
    Packed s (s.callAll calls fun _ => none) (lastItem calls) := by
  induction calls using List.reverseRecOn with
  | nil => exact ⟨fun _ => none, fun _ => rfl, nofun, fun _ => rfl⟩
  | append_singleton calls call ih =>
    have hlast : lastItem (calls ++ [call]) = fun id => (touched id call).getD (lastItem calls id) :=
      funext (lastItem_append calls call)
    rw [hlast, StoragePacker.callAll, List.foldl_append]
    exact call_run ih call

theorem storage_packer_is_map (s : StoragePacker) (calls : List PackerCall) :
    (∀ id, runHealthy (s.getItem id) (s.callAll calls fun _ => none) =
      (if id = [] then .error (.message (ofString "empty item ID")) else .ok (lastItem calls id),
        s.callAll calls fun _ => none)) ∧
    (∀ key value, s.callAll calls (fun _ => none) key = some value →
      ∃ bucket, value = encode s bucket ∧ bucket.key = key ∧
        (bucket.items.map Item.id).Nodup ∧ ∀ item ∈ bucket.items, s.bucketKey item.id = key) ∧
    ∀ call id, touched id call = none →
      (runHealthy (s.getItem id) (s.callAll (calls ++ [call]) fun _ => none)).1 =
        (runHealthy (s.getItem id) (s.callAll calls fun _ => none)).1 := by
  have found : ∀ calls id, runHealthy (s.getItem id) (s.callAll calls fun _ => none) =
      (if id = [] then .error (.message (ofString "empty item ID")) else .ok (lastItem calls id),
        s.callAll calls fun _ => none) := by
    intro calls id
    by_cases hid : id = []
    · rw [if_pos hid, StoragePacker.getItem, List.isEmpty_iff.mpr hid]
      rfl
    · rw [if_neg hid, getItem_run (callAll_run s calls) hid]
  refine ⟨found calls, fun key value hvalue => ?_, fun call id huntouched => ?_⟩
  · obtain ⟨table, hstored, hplaced, -⟩ := callAll_run s calls
    rw [hstored key] at hvalue
    obtain ⟨bucket, hbucket, rfl⟩ := Option.map_eq_some_iff.mp hvalue
    exact ⟨bucket, rfl, hplaced key bucket hbucket⟩
  · rw [found, found, lastItem_append, huntouched]
    rfl

theorem formats_nonempty : Nonempty Formats := by
  have hbytes : Countable UInt8 :=
    Function.Injective.countable fun _ _ h => UInt8.toNat_inj.mp h
  have hitems : Countable Item :=
    Function.Injective.countable (f := fun item : Item => (item.id, item.message)) (by
      rintro ⟨_, _⟩ ⟨_, _⟩ h
      simpa using h)
  have hbuckets : Countable Bucket :=
    Function.Injective.countable (f := fun bucket : Bucket => (bucket.key, bucket.items)) (by
      rintro ⟨_, _⟩ ⟨_, _⟩ h
      simpa using h)
  obtain ⟨number, hnumber⟩ := exists_injective_nat Bucket
  let marshal (bucket : Bucket) : GoString := List.replicate (number bucket) 0
  have hmarshal : Function.Injective marshal := by
    intro bucket bucket' h
    have hlength := congrArg List.length h
    simp only [marshal, List.length_replicate] at hlength
    exact hnumber hlength
  exact ⟨{
    marshal := marshal
    unmarshal := fun data => ((Function.partialInv marshal data).elim (.error .internal) .ok)
    compress := id
    decompress := fun data => .ok (data, false)
    quote := id
    unmarshal_marshal := fun bucket => by rw [Function.partialInv_left hmarshal]; rfl
    decompress_compress := fun _ => rfl }⟩

end VaultProofs.PackedItems
