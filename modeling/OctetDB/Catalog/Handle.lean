import OctetDB.Catalog.Query
import OctetDB.Catalog.Storage

/-!
# A database handle in use

Any number of callers use a handle at once. A call is checked when it is made and again when
it is admitted; in between, other calls and commit groups may run. Mutations go through a
queue, from which the coordinator cuts groups. Closing a handle lets the coordinator empty
the queue first.
-/

namespace OctetDB

/-! ## Admission -/

/-- A caller's context when it is looked at. -/
inductive Context where
  | nil
  | live
  | done (message : String)
  deriving DecidableEq, Repr

def closedError (op : String) : Failure := .product ⟨.closed, op, "database is closed"⟩

def nilContextError (op : String) : Failure := .product ⟨.invalidInput, op, "nil context"⟩

/-- The checks of a call before it waits for admission. -/
def KeyedDB.enterKeyed (db : KeyedDB) (ctx : Context) (op : String) : Except Failure Unit :=
  if db.closed then .error (closedError op)
  else
    match ctx with
    | .nil => .error (nilContextError op)
    | .live => if db.poisoned then .error (poisonedError op) else .ok ()
    | .done message => .error (if db.poisoned then poisonedError op else .context message)

/-- The checks of a call that has been admitted. -/
def KeyedDB.admitKeyed (db : KeyedDB) (op : String) : Except Failure Unit :=
  if db.closed then .error (closedError op)
  else if db.poisoned then
    .error (.product ⟨.poisoned, op,
      "an earlier durability failure made writes unsafe; close and reopen the database"⟩)
  else .ok ()

/-! ## Calls -/

/-- What decoding a record into the caller's destination reports, if it fails. -/
abbrev Destination := Bytes → Option String

structure Bucket where
  db : Nat
  name : Bytes
  deriving DecidableEq, Repr

/-- The calls on a handle other than mutations and Close. -/
inductive Call where
  | getKeyed (key : Bytes) (destination : Option Destination)
  | snapshot
  | bucket (name : Bytes)
  | listBuckets
  | catalog
  | dataset (bucket : Bucket) (name : Bytes) (options : DatasetOptions)
  | listDatasets (bucket : Bucket)
  | get (dataset : Dataset) (key : Bytes) (destination : Option Destination)
  | scan (dataset : Dataset) (visit : Option Visit)

def Call.op : Call → String
  | .getKeyed _ _ => "get_keyed"
  | .snapshot => "snapshot_keyed"
  | .bucket _ => "bucket"
  | .listBuckets => "list_buckets"
  | .catalog => "catalog"
  | .dataset _ _ _ => "dataset"
  | .listDatasets _ => "list_datasets"
  | .get _ _ _ => "dataset_get"
  | .scan _ _ => "dataset_scan"

inductive Reply where
  | found (value : Option Bytes)
  | done
  | bucket (handle : Bucket)
  | buckets (names : List Bytes)
  | catalog (databaseID : Bytes) (buckets : List Bytes) (datasets : List DatasetInfo)
  | dataset (handle : Dataset)
  | datasets (infos : List DatasetInfo)
  | scanned (records : List (Bytes × Bytes))

def Call.validate (options : KeyedBounds) : Call → Except Error Unit
  | .bucket name => validCatalogName "bucket" name
  | .dataset _ name datasetOptions => do
    validCatalogName "dataset" name
    let _ ← normalizeDatasetOptions datasetOptions options
    .ok ()
  | .get _ key destination => do
    validRecordKey key
    if destination.isNone then .error ⟨.invalidInput, "dataset_get", "destination is required"⟩
    else .ok ()
  | .scan target visit =>
    if visit.isNone then .error ⟨.invalidInput, "dataset_scan", "visit callback is required"⟩
    else if target.info.kind ≠ keyedJSON then
      .error ⟨.incompatible, "dataset_scan", "dataset kind does not support scans"⟩
    else .ok ()
  | _ => .ok ()

/-- What the environment does while a call runs: the file operation that fails, and when the
context of a scan is done. -/
structure Environment where
  fault : Option (Nat × String) := none
  cancelled : Nat → Option String := fun _ => none

structure Performed where
  db : Database
  dir : Directory
  reply : Except Failure Reply

def decodeRecord (value : Option Bytes) (destination : Destination) (op : String) :
    Except Failure Reply :=
  match value with
  | none => .ok (.found none)
  | some text =>
    match destination text with
    | some message => .error (.product ⟨.corruption, op, message⟩)
    | none => .ok (.found (some text))

/-- A structural change: the new topology is in force once it is stored. -/
def Database.restructure (db : Database) (d : Directory) (next : CatalogState) (reply : Reply)
    (fault : Option (Nat × String)) : Performed :=
  match persistCatalog next d fault with
  | (d, some err) => ⟨{ db with keyed := db.keyed.poison }, d, .error (.product err)⟩
  | (d, none) => ⟨{ db with catalog := next }, d, .ok reply⟩

def Database.openBucket (db : Database) (d : Directory) (name : Bytes)
    (fault : Option (Nat × String)) : Performed :=
  let handle : Bucket := ⟨db.handle, name⟩
  if name ∈ db.catalog.buckets then ⟨db, d, .ok (.bucket handle)⟩
  else
    let next := { db.catalog with buckets := db.catalog.buckets.insert name ∅ }
    db.restructure d next (.bucket handle) fault

def Database.openDataset (db : Database) (d : Directory) (bucket : Bucket) (name : Bytes)
    (options : DatasetOptions) (fault : Option (Nat × String)) : Performed :=
  match normalizeDatasetOptions options db.keyed.options with
  | .error err => ⟨db, d, .error (.product err)⟩
  | .ok normalized =>
    let entry := db.catalog.buckets.getD bucket.name ∅
    match entry[name]? with
    | some existing =>
      if existing.kind ≠ normalized.kind ∨ existing.typeIdentity ≠ normalized.typeIdentity ∨
          existing.bounds.maxRecords ≠ normalized.maxRecords ∨
          existing.bounds.maxValueBytes ≠ normalized.maxValueBytes then
        ⟨db, d, .error (.product ⟨.incompatible, "dataset",
          "dataset kind, type identity, or bounds do not match its catalog entry"⟩)⟩
      else ⟨db, d, .ok (.dataset ⟨db.handle, existing⟩)⟩
    | none =>
      let info : DatasetInfo :=
        { id := db.catalog.nextDatasetID, bucketName := bucket.name, name := name
          kind := normalized.kind, origin := goCatalog, typeIdentity := normalized.typeIdentity
          bounds := ⟨normalized.maxRecords, normalized.maxValueBytes⟩ }
      let next := { db.catalog with
        nextDatasetID := db.catalog.nextDatasetID + 1
        buckets := db.catalog.buckets.insert bucket.name (entry.insert name info) }
      db.restructure d next (.dataset ⟨db.handle, info⟩) fault

def sortDatasets (infos : List DatasetInfo) : List DatasetInfo :=
  infos.mergeSort fun a b =>
    ((compare a.bucketName b.bucketName).then (compare a.name b.name)).isLE

def Database.perform (db : Database) (d : Directory) (env : Environment) : Call → Performed
  | .getKeyed key destination =>
    ⟨db, d, match destination with
      | some destination =>
        if key = [] then
          .error (.product ⟨.invalidInput, "get_keyed", "key and destination are required"⟩)
        else if key.length > keyedMaxKeyBytes then
          .error (.product ⟨.capacity, "get_keyed", "key exceeds 4 KiB"⟩)
        else decodeRecord db.keyed.records[key]? destination "get_keyed"
      | none => .error (.product ⟨.invalidInput, "get_keyed", "key and destination are required"⟩)⟩
  | .snapshot =>
    match snapshotKeyed db.keyed d env.fault with
    | (d, some err) => ⟨{ db with keyed := db.keyed.poison }, d, .error (.product err)⟩
    | (d, none) => ⟨db, d, .ok .done⟩
  | .bucket name => db.openBucket d name env.fault
  | .listBuckets => ⟨db, d, .ok (.buckets db.catalog.buckets.keys)⟩
  | .catalog =>
    ⟨db, d, .ok (.catalog db.catalog.databaseID db.catalog.buckets.keys
      (sortDatasets (db.catalog.buckets.values.flatMap fun bucket => bucket.values)))⟩
  | .dataset bucket name options => db.openDataset d bucket name options env.fault
  | .listDatasets bucket =>
    ⟨db, d, match db.catalog.buckets[bucket.name]? with
      | none => .error (.product ⟨.corruption, "list_datasets",
          "bucket handle is absent from catalog"⟩)
      | some entry => .ok (.datasets (sortDatasets entry.values))⟩
  | .get dataset key destination =>
    ⟨db, d, match destination with
      | none => .error (.product ⟨.invalidInput, "dataset_get", "destination is required"⟩)
      | some destination =>
        decodeRecord db.keyed.records[backendRecordKey dataset.info.id key]? destination
          "dataset_get"⟩
  | .scan dataset visit =>
    ⟨db, d, match visit with
      | none => .error (.product ⟨.invalidInput, "dataset_scan", "visit callback is required"⟩)
      | some visit => (db.scan dataset visit env.cancelled).map .scanned⟩

/-! ## What a call does -/

namespace Database

/-- The topologies that structural calls install: with a new bucket, or with a new dataset under
the next identity. -/
inductive Structural (db : Database) : Call → CatalogState → Prop where
  | bucket {name : Bytes} (absent : name ∉ db.catalog.buckets) :
      Structural db (.bucket name)
        { db.catalog with buckets := db.catalog.buckets.insert name ∅ }
  | dataset {bucket : Bucket} {name : Bytes} {options normalized : DatasetOptions}
      (normal : normalizeDatasetOptions options db.keyed.options = .ok normalized)
      (absent : (db.catalog.buckets.getD bucket.name ∅)[name]? = none) :
      Structural db (.dataset bucket name options)
        { db.catalog with
          nextDatasetID := db.catalog.nextDatasetID + 1
          buckets := db.catalog.buckets.insert bucket.name
            ((db.catalog.buckets.getD bucket.name ∅).insert name
              { id := db.catalog.nextDatasetID, bucketName := bucket.name, name := name
                kind := normalized.kind, origin := goCatalog
                typeIdentity := normalized.typeIdentity
                bounds := ⟨normalized.maxRecords, normalized.maxValueBytes⟩ }) }

inductive Effect (db : Database) (d : Directory) (call : Call) : Database → Directory → Prop where
  | quiet : Effect db d call db d
  | snapshot {fault : Option (Nat × String)} {d' : Directory}
      (done : snapshotKeyed db.keyed d fault = (d', none)) : Effect db d call db d'
  | snapshotFailed {fault : Option (Nat × String)} {d' : Directory} {err : Error}
      (failed : snapshotKeyed db.keyed d fault = (d', some err)) :
      Effect db d call { db with keyed := db.keyed.poison } d'
  | install {next : CatalogState} {fault : Option (Nat × String)} {d' : Directory}
      (new : db.Structural call next) (done : persistCatalog next d fault = (d', none)) :
      Effect db d call { db with catalog := next } d'
  | installFailed {next : CatalogState} {fault : Option (Nat × String)} {d' : Directory}
      {err : Error} (new : db.Structural call next)
      (failed : persistCatalog next d fault = (d', some err)) :
      Effect db d call { db with keyed := db.keyed.poison } d'

theorem restructure_effect {db : Database} {d : Directory} {call : Call} {next : CatalogState}
    (new : db.Structural call next) (reply : Reply) (fault : Option (Nat × String)) :
    db.Effect d call (db.restructure d next reply fault).db
      (db.restructure d next reply fault).dir := by
  simp only [restructure]
  split
  · exact .installFailed new ‹_›
  · exact .install new ‹_›

theorem perform_effect (db : Database) (d : Directory) (env : Environment) (call : Call) :
    db.Effect d call (db.perform d env call).db (db.perform d env call).dir := by
  cases call with
  | snapshot =>
    simp only [perform]
    split
    · exact .snapshotFailed ‹_›
    · exact .snapshot ‹_›
  | bucket name =>
    simp only [perform, openBucket]
    split
    · exact .quiet
    · exact restructure_effect (.bucket ‹_›) _ _
  | dataset bucket name options =>
    simp only [perform, openDataset]
    split
    · exact .quiet
    · split
      · split <;> exact .quiet
      · exact restructure_effect (.dataset ‹_› ‹_›) _ _
  | _ => exact .quiet

/-- A call leaves the store as it is, or poisons it. -/
theorem perform_keyed (db : Database) (d : Directory) (env : Environment) (call : Call) :
    (db.perform d env call).db.keyed = db.keyed ∨
      (db.perform d env call).db.keyed = db.keyed.poison := by
  have effect := db.perform_effect d env call
  generalize (db.perform d env call).db = db' at effect ⊢
  generalize (db.perform d env call).dir = d' at effect
  cases effect with
  | quiet | snapshot | install => exact .inl rfl
  | snapshotFailed | installFailed => exact .inr rfl

end Database

end OctetDB
