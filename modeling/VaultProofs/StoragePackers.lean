import VaultProofs.GoDecimals
import VaultProofs.GoMaps
import VaultProofs.KeyedLists
import VaultProofs.PhysicalStores

/-!
The storage packer: items are kept in 256 buckets, chosen by a hash of their ID, and a bucket is one
compressed entry.
-/

namespace VaultProofs.StoragePackers

open GoStrings GoDecimals GoMaps KeyedLists EffectPrograms ProgramOutcomes PhysicalStores
open VaultEffects (GoError)

structure Item where
  id : GoString
  message : GoString
  deriving DecidableEq

structure Bucket where
  key : GoString
  items : List Item
  deriving DecidableEq

/-- Protobuf and snappy, which give back what they were given, and the verb `%q`. -/
structure Formats where
  marshal : Bucket → GoString
  unmarshal : GoString → Except GoError Bucket
  compress : GoString → GoString
  decompress : GoString → Except GoError (GoString × Bool)
  quote : GoString → GoString
  unmarshal_marshal : ∀ bucket, unmarshal (marshal bucket) = .ok bucket
  decompress_compress : ∀ data, decompress (compress data) = .ok (data, false)

structure StoragePacker where
  viewPrefix : GoString
  firstHashByte : GoString → UInt8
  formats : Formats

abbrev PackerM := Fallible GoError StoreInterface

def viewGet (key : GoString) : PackerM (Option Entry) :=
  ExceptT.mk (getInternal key)

def viewPut (entry : Entry) : PackerM Unit :=
  ExceptT.mk (putInternal entry)

def Bucket.upsert (bucket : Bucket) (item : Item) : Except GoError Bucket :=
  if item.id.isEmpty then .error (.message (ofString "missing item ID"))
  else .ok { bucket with items := KeyedLists.upsert Item.id item bucket.items }

abbrev ByBucket := AList fun _ : GoString => List GoString

namespace StoragePacker

def bucketKey (s : StoragePacker) (itemID : GoString) : GoString :=
  s.viewPrefix ++ itoa (s.firstHashByte itemID).toNat

/-- Read and decode a bucket, with the texts for what may fail. -/
def fetchBucket (s : StoragePacker) (read decompress decode : String) (key : GoString) :
    PackerM (Option Bucket) := do
  let storageEntry ← mapError (.wrapped read) (viewGet key)
  match storageEntry with
  | none => pure none
  | some entry => do
      let (data, notCompressed) ←
        resume ((s.formats.decompress entry.value).mapError (.wrapped decompress))
      let uncompressedData := if notCompressed then entry.value else data
      let bucket ← resume ((s.formats.unmarshal uncompressedData).mapError (.wrapped decode))
      pure (some bucket)

def getBucket (s : StoragePacker) (key : GoString) : PackerM (Option Bucket) :=
  if key.isEmpty then throw (.message (ofString "missing bucket key"))
  else s.fetchBucket "failed to read packed storage entry"
    "failed to decompress packed storage entry" "failed to decode packed storage entry" key

def putBucket (s : StoragePacker) (bucket : Bucket) : PackerM Unit :=
  if bucket.key.isEmpty then throw (.message (ofString "missing key"))
  else if !hasPrefix bucket.key s.viewPrefix then
    throw (.message (ofString "incorrect prefix; bucket entry key should have " ++
      s.formats.quote s.viewPrefix ++ ofString " prefix"))
  else mapError (.wrapped "failed to persist packed storage entry")
    (viewPut ⟨bucket.key, s.formats.compress (s.formats.marshal bucket)⟩)

def addToBucket (s : StoragePacker) (byBucket : ByBucket) (id : GoString) : ByBucket :=
  byBucket.insert (s.bucketKey id) (id :: (byBucket.lookup (s.bucketKey id)).getD [])

def deleteFromBucket (s : StoragePacker) (itemsToRemove : List GoString) (bucketKey : GoString) :
    PackerM Unit := do
  let found ← s.fetchBucket "failed to read packed storage value"
    "failed to decompress packed storage value" "failed decoding packed storage entry" bucketKey
  match found with
  | none => pure ()
  | some bucket =>
    s.putBucket { bucket with
      items := deleteFrom (fun item => item.id ∈ itemsToRemove) bucket.items 0 }

def deleteFromBuckets (s : StoragePacker) (byBucket : ByBucket) : List GoString → PackerM Unit
  | [] => pure ()
  | bucketKey :: bucketKeys => do
      s.deleteFromBucket ((byBucket.lookup bucketKey).getD []) bucketKey
      s.deleteFromBuckets byBucket bucketKeys

def deleteMultipleItems (s : StoragePacker) (order : MapOrder GoString) (itemIDs : List GoString) :
    PackerM Unit :=
  if itemIDs.isEmpty then pure ()
  else
    let byBucket := itemIDs.foldl s.addToBucket ∅
    s.deleteFromBuckets byBucket (order.arrange byBucket.keys)

def deleteItem (s : StoragePacker) (order : MapOrder GoString) (itemID : GoString) : PackerM Unit :=
  s.deleteMultipleItems order [itemID]

def getItem (s : StoragePacker) (itemID : GoString) : PackerM (Option Item) :=
  if itemID.isEmpty then throw (.message (ofString "empty item ID"))
  else do
    let found ← mapError (.wrapped "failed to read packed storage item")
      (s.getBucket (s.bucketKey itemID))
    match found with
    | none => pure none
    | some bucket => pure (bucket.items.find? fun item => item.id = itemID)

def putItem (s : StoragePacker) (item : Item) : PackerM Unit :=
  if item.id.isEmpty then throw (.message (ofString "missing ID in item"))
  else do
    let found ← s.fetchBucket "failed to read packed storage bucket entry"
      "failed to decompress packed storage entry" "failed to decode packed storage entry"
      (s.bucketKey item.id)
    match found with
    | none => s.putBucket { key := s.bucketKey item.id, items := [item] }
    | some bucket => do
        let bucket ← mapError (.wrapped "failed to update entry in packed storage entry")
          (resume (bucket.upsert item))
        s.putBucket bucket

end StoragePacker

inductive PackerCall where
  | putItem (item : Item)
  | deleteItem (order : MapOrder GoString) (itemID : GoString)
  | deleteMultipleItems (order : MapOrder GoString) (itemIDs : List GoString)

def StoragePacker.call (s : StoragePacker) : PackerCall → PackerM Unit
  | .putItem item => s.putItem item
  | .deleteItem order itemID => s.deleteItem order itemID
  | .deleteMultipleItems order itemIDs => s.deleteMultipleItems order itemIDs

def runHealthy {α : Type} (x : PackerM α) (view : Store) : Except GoError α × Store :=
  Prog.run (exec none) x.run view

def StoragePacker.callAll (s : StoragePacker) (calls : List PackerCall) (view : Store) : Store :=
  calls.foldl (fun view call => (runHealthy (s.call call) view).2) view

end VaultProofs.StoragePackers
