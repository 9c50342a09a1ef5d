import OctetDB.Keyed.Types
import OctetDB.Lib.Json.Value

/-!
# Transactions

A mutation reads committed records through a transaction and collects writes in it; a
write shadows the record it will replace. `finalize` turns the collected writes into the
mutations of a log record, in key order, and checks the bounds.

A `KeyedProgram` is a callback seen through the calls it makes on its transaction.
-/

namespace OctetDB

/-- The text of a successful `json.Marshal`: a JSON value of any nesting depth. -/
abbrev JsonText := { text : Bytes // Json.WellFormed text }

/-- `nil` stands for the deletion of the key. -/
abbrev Writes := ByteMap (Option Bytes)

structure KeyedTx where
  db : KeyedDB
  writes : Writes := ∅

/-- How a callback ends. The value it returns is encoded afterwards, which may fail; the
result of a rejection has been encoded already. -/
inductive MutationOutcome where
  | returned (result : Except String JsonText)
  | rejected (code : Bytes) (result : Option JsonText)
  | failed (err : Failure)
  | panicked (value : String)

/-- What a callback leaves behind. -/
structure MutationRun where
  writes : Writes
  outcome : MutationOutcome

abbrev MutationFunc := KeyedTx → MutationRun

/-! ## Calls on a transaction -/

/-- The record visible under a key: the transaction's own write, or the committed one. -/
def KeyedTx.visible (tx : KeyedTx) (key : Bytes) : Option Bytes :=
  match tx.writes[key]? with
  | some value => value
  | none => tx.db.records[key]?

/-- The text stored under a key; decoding it into a destination is left to the caller. -/
def KeyedTx.get (tx : KeyedTx) (key : Bytes) : Except Error (Option Bytes) :=
  if key = [] then
    .error ⟨.invalidInput, "keyed_tx_get", "key and destination are required"⟩
  else if key.length > keyedMaxKeyBytes then
    .error ⟨.capacity, "keyed_tx_get", "key exceeds 4 KiB"⟩
  else .ok (tx.visible key)

def KeyedTx.put (tx : KeyedTx) (key : Bytes) (value : Except String JsonText) :
    Except Error KeyedTx :=
  if key = [] then .error ⟨.invalidInput, "keyed_tx_put", "key is required"⟩
  else if key.length > keyedMaxKeyBytes then
    .error ⟨.capacity, "keyed_tx_put", "key exceeds 4 KiB"⟩
  else
    match value with
    | .error message => .error ⟨.invalidInput, "keyed_tx_put", message⟩
    | .ok encoded =>
      if encoded.val.length > tx.db.options.maxValueBytes then
        .error ⟨.capacity, "keyed_tx_put", "value exceeds MaxValueBytes"⟩
      else .ok { tx with writes := tx.writes.insert key (some encoded.val) }

def KeyedTx.delete (tx : KeyedTx) (key : Bytes) : Except Error KeyedTx :=
  if key = [] then .error ⟨.invalidInput, "keyed_tx_delete", "key is required"⟩
  else if key.length > keyedMaxKeyBytes then
    .error ⟨.capacity, "keyed_tx_delete", "key exceeds 4 KiB"⟩
  else .ok { tx with writes := tx.writes.insert key none }

/-- A callback as the calls it makes; each continues with the answer of the call. -/
inductive KeyedProgram where
  | get (key : Bytes) (next : Except Error (Option Bytes) → KeyedProgram)
  | put (key : Bytes) (value : Except String JsonText) (next : Option Error → KeyedProgram)
  | delete (key : Bytes) (next : Option Error → KeyedProgram)
  | done (outcome : MutationOutcome)

def KeyedProgram.run : KeyedProgram → MutationFunc
  | .get key next, tx => run (next (tx.get key)) tx
  | .put key value next, tx =>
    match tx.put key value with
    | .ok tx' => run (next none) tx'
    | .error err => run (next (some err)) tx
  | .delete key next, tx =>
    match tx.delete key with
    | .ok tx' => run (next none) tx'
    | .error err => run (next (some err)) tx
  | .done outcome, tx => ⟨tx.writes, outcome⟩

/-! ## The mutations of a transaction -/

/-- One collected write as the log stores it. -/
def writeMutation (write : Bytes × Option Bytes) : KeyedMutation :=
  match write.2 with
  | none => { key := write.1, delete := true }
  | some value => { key := write.1, value := value }

/-- The number of live records after one more write to a key of the state. -/
def countWrite (records : ByteMap Bytes) (count : Int) (mutation : KeyedMutation) : Int :=
  if mutation.delete then (if mutation.key ∈ records then count - 1 else count)
  else if mutation.key ∈ records then count else count + 1

/-- The bytes a write counts against `MaxTransactionBytes`: those of a put. -/
def putBytes (mutation : KeyedMutation) : Nat :=
  if mutation.delete then 0 else mutation.key.length + mutation.value.length

def finalize (db : KeyedDB) (writes : Writes) : Except Error (List KeyedMutation) :=
  let mutations := writes.toList.map writeMutation
  let count := mutations.foldl (countWrite db.records) db.records.size
  let total := (mutations.map putBytes).sum
  if count > db.options.maxRecords then
    .error ⟨.capacity, "submit_keyed", "record capacity exceeded"⟩
  else if total > db.options.maxTransactionBytes then
    .error ⟨.capacity, "submit_keyed", "transaction exceeds MaxTransactionBytes"⟩
  else .ok mutations

end OctetDB
