import OctetDB.Catalog.Query
import OctetDB.Catalog.Storage

/-!
# Opening a catalogued database

A catalogued database is opened in three steps: its store is recovered, its topology is read
from the catalog file and checked against the records that were recovered, and the key lists of
its datasets are rebuilt. A directory without a catalog and without records gets a new one.
-/

namespace OctetDB

open Json

/-! ## Reading the catalog file -/

def DatasetBounds.set (b : DatasetBounds) (field : Bytes × Json) : Option DatasetBounds :=
  if named field.1 "max_records" then
    (decodeInt field.2 (.ofInt b.maxRecords)).map fun n => { b with maxRecords := n.toInt }
  else if named field.1 "max_value_bytes" then
    (decodeInt field.2 (.ofInt b.maxValueBytes)).map fun n => { b with maxValueBytes := n.toInt }
  else some b

def DatasetInfo.set (info : DatasetInfo) (field : Bytes × Json) : Option DatasetInfo :=
  if named field.1 "id" then (decodeUint field.2 info.id).map ({ info with id := · })
  else if named field.1 "bucket_name" then
    (decodeString field.2 info.bucketName).map ({ info with bucketName := · })
  else if named field.1 "name" then
    (decodeString field.2 info.name).map ({ info with name := · })
  else if named field.1 "kind" then
    (decodeString field.2 info.kind).map ({ info with kind := · })
  else if named field.1 "origin" then
    (decodeString field.2 info.origin).map ({ info with origin := · })
  else if named field.1 "type_identity" then
    (decodeString field.2 info.typeIdentity).map ({ info with typeIdentity := · })
  else if named field.1 "bounds" then
    (decodeStruct DatasetBounds.set info.bounds field.2).map ({ info with bounds := · })
  else some info

def DatasetInfo.ofJson (j : Json) : Option DatasetInfo := decodeStruct DatasetInfo.set {} j

/-- A bucket is read as its map of datasets, which may be nil. -/
def setBucket (bucket : Option CatalogBucket) (field : Bytes × Json) :
    Option (Option CatalogBucket) :=
  if named field.1 "datasets" then decodeNilMap DatasetInfo.ofJson field.2 bucket else some bucket

/-- A topology as it is read: a map that the file does not have is nil. -/
structure DecodedCatalog where
  databaseID : Bytes := []
  nextDatasetID : UInt64 := 0
  buckets : Option (ByteMap (Option CatalogBucket)) := none

namespace DecodedCatalog

def set (state : DecodedCatalog) (field : Bytes × Json) : Option DecodedCatalog :=
  if named field.1 "database_id" then
    (decodeString field.2 state.databaseID).map ({ state with databaseID := · })
  else if named field.1 "next_dataset_id" then
    (decodeUint field.2 state.nextDatasetID).map ({ state with nextDatasetID := · })
  else if named field.1 "buckets" then
    (decodeNilMap (decodeStruct setBucket none) field.2 state.buckets).map
      ({ state with buckets := · })
  else some state

def unmarshal (text : Bytes) : Option DecodedCatalog :=
  (parse text).bind (decodeStruct set {})

/-- The topology, a nil map being an empty one from here on. -/
def toState (state : DecodedCatalog) : CatalogState where
  databaseID := state.databaseID
  nextDatasetID := state.nextDatasetID
  buckets := (state.buckets.getD ∅).map fun _ bucket => bucket.getD ∅

end DecodedCatalog

/-- A topology in memory, none of whose maps is nil. -/
def CatalogState.decoded (state : CatalogState) : DecodedCatalog where
  databaseID := state.databaseID
  nextDatasetID := state.nextDatasetID
  buckets := some (state.buckets.map fun _ bucket => some bucket)

/-! ## Checking the topology

The source visits buckets, datasets and records in no particular order; which of several errors
is reported depends on it, and whether there is one does not. -/

def catalogError (kind : ErrorKind) (message : String) : Error := ⟨kind, "open_catalog", message⟩

def validateDataset (next : UInt64) (bucketName : Bytes) (ids : WordMap DatasetInfo)
    (entry : Bytes × DatasetInfo) : Except Error (WordMap DatasetInfo) :=
  if validCatalogName "dataset" entry.1 ≠ .ok () ∨ entry.2.id = 0 ∨ entry.2.id ≥ next ∨
      entry.2.bucketName ≠ bucketName ∨ entry.2.name ≠ entry.1 ∨ entry.2.kind ≠ keyedJSON ∨
      entry.2.origin ≠ goCatalog ∨ entry.2.bounds.maxRecords ≤ 0 ∨
      entry.2.bounds.maxValueBytes ≤ 0 then
    .error (catalogError .corruption "catalog dataset is invalid")
  else if entry.2.id ∈ ids then
    .error (catalogError .corruption "catalog contains duplicate dataset identity")
  else .ok (ids.insert entry.2.id entry.2)

def validateBucket (next : UInt64) (ids : WordMap DatasetInfo)
    (entry : Bytes × Option CatalogBucket) : Except Error (WordMap DatasetInfo) :=
  match validCatalogName "bucket" entry.1, entry.2 with
  | .ok (), some datasets => datasets.toList.foldlM (validateDataset next entry.1) ids
  | _, _ => .error (catalogError .corruption "catalog bucket is invalid")

/-- One record, with the number of records of every dataset seen so far. -/
def validateRecord (ids : WordMap DatasetInfo) (counts : WordMap Nat) (entry : Bytes × Bytes) :
    Except Error (WordMap Nat) :=
  match backendDatasetID entry.1 with
  | none => .error (catalogError .corruption "record has no dataset identity")
  | some id =>
    match ids[id]? with
    | none => .error (catalogError .corruption "record references an unknown dataset")
    | some dataset =>
      if entry.2.length > dataset.bounds.maxValueBytes then
        .error (catalogError .capacity "record exceeds its dataset value bound")
      else if (counts.getD id 0 + 1 : Nat) > dataset.bounds.maxRecords then
        .error (catalogError .capacity "dataset exceeds its record bound")
      else .ok (counts.insert id (counts.getD id 0 + 1))

def validateCatalogState (state : DecodedCatalog) (keyed : KeyedDB) : Except Error Unit :=
  match state.buckets with
  | none => .error (catalogError .corruption "catalog identity or topology is invalid")
  | some buckets =>
    if state.databaseID = [] ∨ state.nextDatasetID = 0 then
      .error (catalogError .corruption "catalog identity or topology is invalid")
    else do
      let ids ← buckets.toList.foldlM (validateBucket state.nextDatasetID) ∅
      let _ ← keyed.records.toList.foldlM (validateRecord ids) ∅
      .ok ()

/-! ## Opening -/

abbrev Identity := { bytes : Bytes // bytes.length = 16 }

/-- The topology of a recovered store. A new catalog is written with the given identity; the
file operation at the position of a fault, if any, fails. -/
def loadOrCreateCatalog (identity : Identity) (fault : Option (Nat × String)) (keyed : KeyedDB)
    (d : Directory) : Except Error (CatalogState × Directory) :=
  match d.catalog with
  | none =>
    if keyed.sequence ≠ 0 ∨ keyed.records.isEmpty = false then
      .error (catalogError .incompatible "keyed data exists without catalog identity")
    else
      let state : CatalogState := { databaseID := hexText identity.val, nextDatasetID := 1 }
      match persistCatalog state { d with catalogTmp := none } fault with
      | (_, some err) => .error err
      | (d, none) => .ok (state, d)
  | some payload =>
    match Envelope.unmarshal payload with
    | none => .error (catalogError .corruption "decode catalog")
    | some envelope =>
      if envelope.magic ≠ catalogMagic ∨ envelope.version ≠ 1 then
        .error (catalogError .incompatible "unsupported catalog format")
      else if envelope.sha256 ≠ hexText (sha256 envelope.payload) then
        .error (catalogError .corruption "catalog checksum mismatch")
      else
        match DecodedCatalog.unmarshal envelope.payload with
        | none => .error (catalogError .corruption "decode catalog payload")
        | some state => do
          validateCatalogState state keyed
          .ok (state.toState, { d with catalogTmp := none })

def openCatalog (handle : Nat) (identity : Identity) (fault : Option (Nat × String))
    (options : KeyedOptions) (d : Directory) : Except Error (Database × Directory) := do
  let (keyed, d) ← openKeyed options .catalog d
  let (state, d) ← loadOrCreateCatalog identity fault keyed d
  .ok ({ handle := handle, keyed := keyed, catalog := state
         queryKeys := initializeQueryKeys keyed.records.keys }, d)

end OctetDB
