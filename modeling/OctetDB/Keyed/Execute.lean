import OctetDB.Keyed.Tx
import OctetDB.Lib.Utf8

/-!
# Deciding and applying one command

`executeKeyed` decides a command against the current state without changing it. A decision
that is to be persisted is a log record; `applyKeyed` applies it to the state, live and
during recovery alike.
-/

namespace OctetDB

/-- The answer of `executeKeyed`. Only `decided` is persisted, and the caller's decision is
then the one of the record. -/
inductive Execution where
  | refused (err : Failure)
  | duplicate (decision : KeyedDecision)
  | decided (record : KeyedWALRecord)
  | panicked (value : String)

def Execution.refuse (kind : ErrorKind) (message : String) : Execution :=
  .refused (.product ⟨kind, "submit_keyed", message⟩)

def KeyedDecision.asDuplicate (d : KeyedDecision) : KeyedDecision := { d with duplicate := true }

/-- The decision of a callback that has run, for a command that was not decided before. -/
def decideKeyed (db : KeyedDB) (id : Bytes) (run : MutationRun) : Execution :=
  let record : KeyedWALRecord := { sequence := db.sequence + 1, commandID := id, applied := true }
  match run.outcome with
  | .panicked value => .panicked value
  | .failed err => .refused err
  | .rejected code result =>
    let result : Bytes := (result.map Subtype.val).getD []
    if Utf8.trimSpace code = [] then .refuse .invalidInput "rejection code is required"
    else if code.length > keyedMaxCodeBytes then
      .refuse .capacity "rejection code exceeds 1 KiB"
    else if result.length > db.options.maxValueBytes then
      .refuse .capacity "rejection result exceeds MaxValueBytes"
    else .decided { record with applied := false, code := code, result := result }
  | .returned (.error message) => .refuse .invalidInput ("encode result: " ++ message)
  | .returned (.ok encoded) =>
    if encoded.val.length > db.options.maxValueBytes then
      .refuse .capacity "result exceeds MaxValueBytes"
    else
      match finalize db run.writes with
      | .error err => .refused (.product err)
      | .ok mutations => .decided { record with result := encoded.val, mutations := mutations }

def executeKeyed (db : KeyedDB) (id : Bytes) (mutation : Option MutationFunc) : Execution :=
  if Utf8.trimSpace id = [] then .refuse .invalidInput "command ID is required"
  else if id.length > keyedMaxIdentityBytes then .refuse .capacity "command ID exceeds 4 KiB"
  else
    match mutation with
    | none => .refuse .invalidInput "mutation is required"
    | some mutation =>
      match db.dedupe[id]? with
      | some prior => .duplicate prior.decision.asDuplicate
      | none => decideKeyed db id (mutation { db := db })

def applyMutation (records : ByteMap Bytes) (mutation : KeyedMutation) : ByteMap Bytes :=
  if mutation.delete then records.erase mutation.key
  else records.insert mutation.key mutation.value

def applyKeyed (db : KeyedDB) (record : KeyedWALRecord) : KeyedDB :=
  { db with
    records := if record.applied then record.mutations.foldl applyMutation db.records
      else db.records
    sequence := record.sequence
    toWindow := db.toWindow.retain db.options.dedupeHorizon record.commandID record.retained }

/-! ## What a decision and its application do -/

/-- The two ways a callback that has run is decided: an exact rejection without writes, or an
accepted result with the finalized writes. -/
theorem decideKeyed_eq_decided {db : KeyedDB} {id : Bytes} {run : MutationRun}
    {record : KeyedWALRecord} (h : decideKeyed db id run = .decided record) :
    (∃ code result, run.outcome = .rejected code result ∧
      Utf8.trimSpace code ≠ [] ∧ code.length ≤ keyedMaxCodeBytes ∧
      ((result.map Subtype.val).getD []).length ≤ db.options.maxValueBytes ∧
      record = ⟨db.sequence + 1, id, false, code, (result.map Subtype.val).getD [], []⟩) ∨
    ∃ encoded mutations, run.outcome = .returned (.ok encoded) ∧
      encoded.val.length ≤ db.options.maxValueBytes ∧
      finalize db run.writes = .ok mutations ∧
      record = ⟨db.sequence + 1, id, true, [], encoded.val, mutations⟩ := by
  unfold decideKeyed at h
  cases outcome : run.outcome with
  | panicked value => simp [outcome] at h
  | failed err => simp [outcome] at h
  | rejected code result =>
    simp only [outcome, Execution.refuse] at h
    split at h
    · cases h
    split at h
    · cases h
    split at h
    · cases h
    cases h
    exact .inl ⟨code, result, rfl, by assumption, by omega, by omega, rfl⟩
  | returned result =>
    cases result with
    | error message => simp [outcome, Execution.refuse] at h
    | ok encoded =>
      simp only [outcome, Execution.refuse] at h
      split at h
      · cases h
      split at h
      · cases h
      · rename_i mutations ok
        cases h
        exact .inr ⟨encoded, mutations, rfl, by omega, ok, rfl⟩

/-- A command is decided only under a proper ID that is not retained, by its callback. -/
theorem executeKeyed_eq_decided {db : KeyedDB} {id : Bytes} {mutation : Option MutationFunc}
    {record : KeyedWALRecord} (h : executeKeyed db id mutation = .decided record) :
    Utf8.trimSpace id ≠ [] ∧ id.length ≤ keyedMaxIdentityBytes ∧ db.dedupe[id]? = none ∧
      ∃ callback, mutation = some callback ∧
        decideKeyed db id (callback { db := db }) = .decided record := by
  unfold executeKeyed Execution.refuse at h
  split at h
  · cases h
  split at h
  · cases h
  split at h
  · cases h
  split at h
  · cases h
  · exact ⟨by assumption, by omega, by assumption, _, rfl, h⟩

theorem decideKeyed_identity {db : KeyedDB} {id : Bytes} {run : MutationRun}
    {record : KeyedWALRecord} (h : decideKeyed db id run = .decided record) :
    record.commandID = id ∧ record.sequence = db.sequence + 1 := by
  obtain ⟨_, _, _, _, _, _, rfl⟩ | ⟨_, _, _, _, _, rfl⟩ := decideKeyed_eq_decided h <;>
    exact ⟨rfl, rfl⟩

section Apply

variable (db : KeyedDB) (record : KeyedWALRecord)

@[simp] theorem applyKeyed_sequence : (applyKeyed db record).sequence = record.sequence := rfl
@[simp] theorem applyKeyed_options : (applyKeyed db record).options = db.options := rfl
@[simp] theorem applyKeyed_format : (applyKeyed db record).format = db.format := rfl
@[simp] theorem applyKeyed_closed : (applyKeyed db record).closed = db.closed := rfl
@[simp] theorem applyKeyed_poisoned : (applyKeyed db record).poisoned = db.poisoned := rfl

end Apply

end OctetDB
