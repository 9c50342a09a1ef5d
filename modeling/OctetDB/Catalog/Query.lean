import OctetDB.Catalog.Tx
import OctetDB.Lib.Search

/-!
# Scans

Every dataset has a list of its record keys in ascending order, which a scan walks. The lists
are not stored: opening a database rebuilds them, and every applied decision updates them.
-/

namespace OctetDB

/-- The position of a key in byte order, by binary search. -/
def searchStrings (keys : List Bytes) (key : Bytes) : Nat := Search.position compare keys key

def sortStrings (keys : List Bytes) : List Bytes := keys.mergeSort fun a b => (compare a b).isLE

def appendQueryKey (queryKeys : WordMap (List Bytes)) (backendKey : Bytes) :
    WordMap (List Bytes) :=
  match backendDatasetID backendKey with
  | none => queryKeys
  | some id => queryKeys.insert id (queryKeys.getD id [] ++ [backendKey.drop 9])

/-- The lists of a database that is opened, from the keys of its records in the order in which
they are visited. -/
def initializeQueryKeys (backendKeys : List Bytes) : WordMap (List Bytes) :=
  (backendKeys.foldl appendQueryKey ∅).map fun _ keys => sortStrings keys

def applyQueryKeyMutation (queryKeys : WordMap (List Bytes)) (mutation : KeyedMutation) :
    WordMap (List Bytes) :=
  match backendDatasetID mutation.key with
  | none => queryKeys
  | some id =>
    let key := mutation.key.drop 9
    let keys := queryKeys.getD id []
    let position := searchStrings keys key
    if mutation.delete then
      if keys[position]? = some key then queryKeys.insert id (keys.eraseIdx position) else queryKeys
    else if keys[position]? = some key then queryKeys
    else queryKeys.insert id (keys.insertIdx position key)

def applyQueryKeyMutations (queryKeys : WordMap (List Bytes)) (record : KeyedWALRecord) :
    WordMap (List Bytes) :=
  if record.applied then record.mutations.foldl applyQueryKeyMutation queryKeys else queryKeys

inductive ScanAction where
  | scanContinue
  | scanStop
  | other (value : UInt8)
  deriving DecidableEq, Repr

/-- A visit callback, as a function of the records it has been shown, the last one being the
current one. -/
abbrev Visit := List (Bytes × Bytes) → Except Failure ScanAction

/-- The loop of a scan over the remaining keys, after the records `seen`. `cancelled` tells
whether the context is done when a record comes up. -/
def scanLoop (records : ByteMap Bytes) (id : UInt64) (visit : Visit)
    (cancelled : Nat → Option String) : List Bytes → List (Bytes × Bytes) →
    Except Failure (List (Bytes × Bytes))
  | [], seen => .ok seen
  | key :: keys, seen =>
    match cancelled seen.length with
    | some message => .error (.context message)
    | none =>
      let seen := seen ++ [(key, records.getD (backendRecordKey id key) [])]
      match visit seen with
      | .error err => .error err
      | .ok .scanContinue => scanLoop records id visit cancelled keys seen
      | .ok .scanStop => .ok seen
      | .ok (.other _) =>
        .error (.product ⟨.invalidInput, "dataset_scan", "visit returned an invalid ScanAction"⟩)

def Database.scan (db : Database) (dataset : Dataset) (visit : Visit)
    (cancelled : Nat → Option String) : Except Failure (List (Bytes × Bytes)) :=
  scanLoop db.keyed.records dataset.info.id visit cancelled
    (db.queryKeys.getD dataset.info.id []) []

end OctetDB
