import OctetDB.Errors
import OctetDB.Lib.Window

/-!
# Data model of the keyed database

Options, durable decisions, log records and the in-memory state of an open handle. The
normalized options carry the facts `normalizeKeyedOptions` establishes, so a handle with
a zero dedupe horizon or with values larger than a transaction cannot be written down.
-/

namespace OctetDB

def keyedMaxIdentityBytes : Nat := 4 * 2 ^ 10
def keyedMaxKeyBytes : Nat := 4 * 2 ^ 10
def keyedMaxCodeBytes : Nat := 2 ^ 10
def maxKeyedFrameBytes : Nat := 64 * 2 ^ 20
def keyedMaxCommitGroup : Nat := 64

/-- The options as a caller gives them; zero selects the default. -/
structure KeyedOptions where
  maxRecords : Int := 0
  dedupeHorizon : Int := 0
  maxValueBytes : Int := 0
  maxTransactionBytes : Int := 0
  deriving DecidableEq, Repr

/-- The options of an open handle. -/
structure KeyedBounds where
  maxRecords : Nat
  dedupeHorizon : Nat
  maxValueBytes : Nat
  maxTransactionBytes : Nat
  records_pos : 0 < maxRecords
  horizon_pos : 0 < dedupeHorizon
  value_pos : 0 < maxValueBytes
  value_le_transaction : maxValueBytes ≤ maxTransactionBytes
  deriving DecidableEq, Repr

def orDefault (value : Int) (default : Nat) : Nat :=
  if value = 0 then default else value.toNat

theorem orDefault_pos {value : Int} {default : Nat} (hv : 0 ≤ value) (hd : 0 < default) :
    0 < orDefault value default := by
  unfold orDefault
  split <;> omega

def normalizeKeyedOptions (o : KeyedOptions) : Except Error KeyedBounds :=
  if h : o.maxRecords < 0 ∨ o.dedupeHorizon < 0 ∨ o.maxValueBytes < 0 ∨
      o.maxTransactionBytes < 0 then
    .error ⟨.invalidInput, "open_keyed", "bounds cannot be negative"⟩
  else if hle : orDefault o.maxTransactionBytes (4 * 2 ^ 20) <
      orDefault o.maxValueBytes (2 ^ 20) then
    .error ⟨.invalidInput, "open_keyed", "MaxTransactionBytes must be at least MaxValueBytes"⟩
  else
    .ok {
      maxRecords := orDefault o.maxRecords 100000
      dedupeHorizon := orDefault o.dedupeHorizon 100000
      maxValueBytes := orDefault o.maxValueBytes (2 ^ 20)
      maxTransactionBytes := orDefault o.maxTransactionBytes (4 * 2 ^ 20)
      records_pos := orDefault_pos (by omega) (by decide)
      horizon_pos := orDefault_pos (by omega) (by decide)
      value_pos := orDefault_pos (by omega) (by decide)
      value_le_transaction := Nat.not_lt.mp hle }

/-- One write of a log record: a value, or the deletion of a key. -/
structure KeyedMutation where
  key : Bytes := []
  value : Bytes := []
  delete : Bool := false
  deriving DecidableEq, Repr

/-- One durable decision as the log stores it. -/
structure KeyedWALRecord where
  sequence : UInt64 := 0
  commandID : Bytes := []
  applied : Bool := false
  code : Bytes := []
  result : Bytes := []
  mutations : List KeyedMutation := []
  deriving DecidableEq, Repr

/-- The outcome a caller receives. -/
structure KeyedDecision where
  sequence : UInt64 := 0
  commandID : Bytes := []
  applied : Bool := false
  code : Bytes := []
  result : Bytes := []
  duplicate : Bool := false
  deriving DecidableEq, Repr

def KeyedWALRecord.decision (r : KeyedWALRecord) : KeyedDecision :=
  { sequence := r.sequence, commandID := r.commandID, applied := r.applied, code := r.code,
    result := r.result }

/-- The record as the dedupe window keeps it: without its writes. -/
def KeyedWALRecord.retained (r : KeyedWALRecord) : KeyedWALRecord := { r with mutations := [] }

@[simp] theorem KeyedWALRecord.decision_retained (r : KeyedWALRecord) :
    r.retained.decision = r.decision := rfl
@[simp] theorem KeyedWALRecord.retained_commandID (r : KeyedWALRecord) :
    r.retained.commandID = r.commandID := rfl
@[simp] theorem KeyedWALRecord.retained_sequence (r : KeyedWALRecord) :
    r.retained.sequence = r.sequence := rfl
@[simp] theorem KeyedWALRecord.retained_mutations (r : KeyedWALRecord) :
    r.retained.mutations = [] := rfl

/-- The two on-disk formats of the keyed store: global keys, and keys prefixed with the
identity of a catalogued dataset. -/
inductive KeyedFormat where
  | keyed
  | catalog
  deriving DecidableEq, Repr

def KeyedFormat.contents : KeyedFormat → Bytes
  | .keyed => ascii "OCTETDB\nformat=1\nmodel=keyed-json-v1\nengine=safe-go\n"
  | .catalog => ascii "OCTETDB\nformat=1\nmodel=catalog-keyed-json-v1\nengine=safe-go\n"

/-- The in-memory state of an open handle, with its window of retained decisions. -/
structure KeyedDB extends Window KeyedWALRecord where
  options : KeyedBounds
  format : KeyedFormat
  records : ByteMap Bytes := ∅
  sequence : UInt64 := 0
  closed : Bool := false
  poisoned : Bool := false

def KeyedDB.maxStoredKeyBytes (db : KeyedDB) : Nat :=
  match db.format with
  | .catalog => keyedMaxKeyBytes + 9
  | .keyed => keyedMaxKeyBytes

end OctetDB
