import OctetDB.Keyed.Execute

/-!
# Datasets over one keyed store

A catalogued database keeps the records of all its datasets in one keyed store, under
keys that start with a zero byte and the dataset's identity. A mutation of the database
is a mutation of the store that addresses records through dataset handles and ends with a
check of every dataset's record bound.
-/

namespace OctetDB

/-! ## Backend keys -/

def backendRecordKey (datasetID : UInt64) (recordKey : Bytes) : Bytes :=
  0 :: (putUint64BE datasetID ++ recordKey)

def backendDatasetID (key : Bytes) : Option UInt64 :=
  if key.length < 9 ∨ key.head? ≠ some 0 then none else some (uint64BE ((key.drop 1).take 8))

@[simp] theorem length_backendRecordKey (id : UInt64) (key : Bytes) :
    (backendRecordKey id key).length = key.length + 9 := by
  simp [backendRecordKey]; omega

@[simp] theorem backendDatasetID_backendRecordKey (id : UInt64) (key : Bytes) :
    backendDatasetID (backendRecordKey id key) = some id := by
  have read := uint64BE_putUint64BE id []
  rw [List.append_nil] at read
  simp [backendDatasetID, backendRecordKey, read]

/-! ## The catalog -/

def keyedJSON : Bytes := ascii "keyed_json"
def goCatalog : Bytes := ascii "go"

structure DatasetBounds where
  maxRecords : Int := 0
  maxValueBytes : Int := 0
  deriving DecidableEq, Repr

structure DatasetInfo where
  id : UInt64 := 0
  bucketName : Bytes := []
  name : Bytes := []
  kind : Bytes := []
  origin : Bytes := []
  typeIdentity : Bytes := []
  bounds : DatasetBounds := {}
  deriving DecidableEq, Repr

abbrev CatalogBucket := ByteMap DatasetInfo

structure CatalogState where
  databaseID : Bytes := []
  nextDatasetID : UInt64 := 0
  buckets : ByteMap CatalogBucket := ∅

/-- An open catalogued database. `handle` tells databases of one process apart. -/
structure Database where
  handle : Nat
  keyed : KeyedDB
  catalog : CatalogState
  queryKeys : WordMap (List Bytes) := ∅

/-- A dataset handle and the database it was obtained from. -/
structure Dataset where
  db : Nat
  info : DatasetInfo
  deriving DecidableEq, Repr

/-! ## Transactions over datasets -/

structure Tx where
  db : Database
  writes : Writes := ∅

def validRecordKey (key : Bytes) : Except Error Unit :=
  if key = [] then .error ⟨.invalidInput, "record_key", "record key is required"⟩
  else if key.length > keyedMaxKeyBytes then
    .error ⟨.capacity, "record_key", "record key exceeds 4 KiB"⟩
  else .ok ()

def Tx.validDataset (tx : Tx) (dataset : Dataset) (key : Bytes) (op : String) :
    Except Error Unit :=
  if dataset.db ≠ tx.db.handle then
    .error ⟨.invalidInput, "catalog_tx_" ++ op, "dataset does not belong to this database"⟩
  else validRecordKey key

/-- The text visible under a key; decoding it into a destination is left to the caller. -/
def Tx.get (tx : Tx) (dataset : Dataset) (key : Bytes) : Except Error (Option Bytes) := do
  tx.validDataset dataset key "get"
  .ok ({ db := tx.db.keyed, writes := tx.writes : KeyedTx }.visible
    (backendRecordKey dataset.info.id key))

def Tx.put (tx : Tx) (dataset : Dataset) (key : Bytes) (value : Except String JsonText) :
    Except Error Tx := do
  tx.validDataset dataset key "put"
  match value with
  | .error message => .error ⟨.invalidInput, "catalog_tx_put", message⟩
  | .ok encoded =>
    if encoded.val.length > dataset.info.bounds.maxValueBytes then
      .error ⟨.capacity, "catalog_tx_put", "value exceeds dataset MaxValueBytes"⟩
    else
      let backendKey := backendRecordKey dataset.info.id key
      .ok { tx with writes := tx.writes.insert backendKey (some encoded.val) }

def Tx.delete (tx : Tx) (dataset : Dataset) (key : Bytes) : Except Error Tx := do
  tx.validDataset dataset key "delete"
  .ok { tx with writes := tx.writes.insert (backendRecordKey dataset.info.id key) none }

/-- A callback as the calls it makes; each continues with the answer of the call. -/
inductive TxProgram where
  | get (dataset : Dataset) (key : Bytes) (next : Except Error (Option Bytes) → TxProgram)
  | put (dataset : Dataset) (key : Bytes) (value : Except String JsonText)
      (next : Option Error → TxProgram)
  | delete (dataset : Dataset) (key : Bytes) (next : Option Error → TxProgram)
  | done (outcome : MutationOutcome)

def TxProgram.run : TxProgram → Tx → MutationRun
  | .get dataset key next, tx => run (next (tx.get dataset key)) tx
  | .put dataset key value next, tx =>
    match tx.put dataset key value with
    | .ok tx' => run (next none) tx'
    | .error err => run (next (some err)) tx
  | .delete dataset key next, tx =>
    match tx.delete dataset key with
    | .ok tx' => run (next none) tx'
    | .error err => run (next (some err)) tx
  | .done outcome, tx => ⟨tx.writes, outcome⟩

/-! ## The bounds of the datasets -/

def bump (counts : WordMap Int) (id : UInt64) (delta : Int) : WordMap Int :=
  counts.insert id (counts.getD id 0 + delta)

/-- The number of records every dataset would have after the transaction's writes. -/
def Tx.counts (tx : Tx) : WordMap Int :=
  let committed := tx.db.keyed.records.keys.foldl (fun counts key =>
    match backendDatasetID key with
    | some id => bump counts id 1
    | none => counts) ∅
  tx.writes.toList.foldl (fun counts write =>
    match backendDatasetID write.1 with
    | none => counts
    | some id =>
      if write.2 = none ∧ write.1 ∈ tx.db.keyed.records then bump counts id (-1)
      else if write.2 ≠ none ∧ write.1 ∉ tx.db.keyed.records then bump counts id 1
      else counts) committed

def Tx.validateDatasetBounds (tx : Tx) : Except Error Unit :=
  let counts := tx.counts
  let datasets := tx.db.catalog.buckets.values.flatMap fun bucket => bucket.values
  if datasets.any fun dataset => counts.getD dataset.id 0 > dataset.bounds.maxRecords then
    .error ⟨.capacity, "catalog_mutate", "dataset record capacity exceeded"⟩
  else .ok ()

/-- The mutation of the keyed store that `Mutate` submits for a callback. -/
def Database.mutation (db : Database) (program : TxProgram) : MutationFunc := fun tx =>
  let db := { db with keyed := tx.db }
  let run := program.run { db := db, writes := tx.writes }
  match run.outcome with
  | .returned _ =>
    match ({ db := db, writes := run.writes : Tx }).validateDatasetBounds with
    | .error err => { run with outcome := .failed (.product err) }
    | .ok () => run
  | _ => run

end OctetDB
