import OctetDB.Keyed.Group

/-!
# The files of a keyed store

A store owns a format marker, a log and at most one snapshot. Opening it checks the marker,
loads the snapshot and replays the log behind it; a tail too short for its frame is cut off.
A snapshot is written beside the current one, moved over it, and then the log is emptied.
-/

namespace OctetDB

structure Directory where
  format : Option Bytes := none
  formatTmp : Option Bytes := none
  snapshot : Option Bytes := none
  snapshotTmp : Option Bytes := none
  wal : Option Bytes := none
  catalog : Option Bytes := none
  catalogTmp : Option Bytes := none
  deriving DecidableEq, Repr

def openError (kind : ErrorKind) (message : String) : Error := ⟨kind, "open_keyed", message⟩

/-! ## The format marker -/

/-- The directory holds nothing that would make it another program's. -/
def Directory.isEmpty (d : Directory) : Bool :=
  d.snapshot.isNone && d.snapshotTmp.isNone && d.wal.isNone && d.catalog.isNone &&
    d.catalogTmp.isNone

def ensureKeyedFormat (d : Directory) (expected : Bytes) : Except Error Directory :=
  match d.format with
  | some data =>
    if data ≠ expected then
      .error (openError .incompatible "directory contains a different OctetDB model")
    else .ok d
  | none =>
    if d.isEmpty then .ok { d with format := some expected, formatTmp := none }
    else .error (openError .incompatible "non-empty directory has no keyed OctetDB FORMAT marker")

/-! ## The checks of recovery -/

/-- The loop over the writes of a record, with the keys and bytes seen so far. -/
def validateMutations (db : KeyedDB) : List KeyedMutation → List Bytes → Nat → Except Error Nat
  | [], _, total => .ok total
  | m :: rest, seen, total =>
    if m.key = [] then .error (openError .corruption "WAL mutation key is empty")
    else if m.key.length > db.maxStoredKeyBytes then
      .error (openError .corruption "WAL key exceeds fixed bound")
    else if m.key ∈ seen then
      .error (openError .corruption "WAL contains duplicate mutation key")
    else if m.delete = true ∧ m.value ≠ [] then
      .error (openError .corruption "WAL delete contains a value")
    else if m.value.length > db.options.maxValueBytes then
      .error (openError .capacity "WAL value exceeds configured bound")
    else if m.delete = false ∧ Json.valid m.value = false then
      .error (openError .corruption "WAL value is not valid JSON")
    else validateMutations db rest (m.key :: seen) (total + (m.key.length + m.value.length))

def validateKeyedRecord (db : KeyedDB) (r : KeyedWALRecord) : Except Error Unit :=
  if r.commandID = [] then .error (openError .corruption "WAL command ID is empty")
  else if r.commandID.length > keyedMaxIdentityBytes then
    .error (openError .corruption "WAL command ID exceeds fixed bound")
  else if r.code.length > keyedMaxCodeBytes then
    .error (openError .corruption "WAL rejection code exceeds fixed bound")
  else if r.result.length > db.options.maxValueBytes then
    .error (openError .capacity "WAL result exceeds configured value bound")
  else if r.result ≠ [] ∧ Json.valid r.result = false then
    .error (openError .corruption "WAL result is not valid JSON")
  else if r.applied = false ∧ r.mutations ≠ [] then
    .error (openError .corruption "rejected WAL decision contains mutations")
  else
    match validateMutations db r.mutations [] 0 with
    | .error err => .error err
    | .ok total =>
      if total > db.options.maxTransactionBytes then
        .error (openError .capacity "WAL transaction exceeds configured bound")
      else .ok ()

def validateKeyedApply (db : KeyedDB) (r : KeyedWALRecord) : Except Error Unit :=
  if r.applied = false then .ok ()
  else if r.mutations.foldl (countWrite db.records) db.records.size > db.options.maxRecords then
    .error (openError .capacity "WAL exceeds configured record capacity")
  else .ok ()

/-! ## Replaying the log -/

/-- The state of a replay: the store and the sequence of the frame before. -/
structure Replay where
  db : KeyedDB
  lastSequence : UInt64 := 0

def replayRecord (s : Replay) (r : KeyedWALRecord) : Except Error Replay :=
  if r.sequence = 0 ∨ (s.lastSequence ≠ 0 ∧ r.sequence ≠ s.lastSequence + 1) then
    .error (openError .corruption "WAL sequence is not contiguous")
  else
    match validateKeyedRecord s.db r with
    | .error err => .error err
    | .ok () =>
      if r.sequence > s.db.sequence then
        if r.sequence ≠ s.db.sequence + 1 then
          .error (openError .corruption "WAL does not continue snapshot sequence")
        else if r.commandID ∈ s.db.dedupe then
          .error (openError .corruption "WAL repeats a retained command ID")
        else
          match validateKeyedApply s.db r with
          | .error err => .error err
          | .ok () => .ok ⟨applyKeyed s.db r, r.sequence⟩
      else .ok ⟨s.db, r.sequence⟩

def replayFrame (s : Replay) (payload : Bytes) : Except Error Replay :=
  match KeyedWALRecord.unmarshal payload with
  | none => .error (openError .corruption "decode WAL")
  | some r => replayRecord s r

/-- The store after the log, and the log without a torn tail. -/
def replayKeyedWAL (db : KeyedDB) (wal : Bytes) : Except Error (KeyedDB × Bytes) :=
  let scan := Frame.scan 1 maxKeyedFrameBytes wal
  match scan.payloads.foldlM replayFrame { db := db } with
  | .error err => .error err
  | .ok s =>
    match scan.stop with
    | .done => .ok (s.db, wal)
    | .torn => .ok (s.db, wal.take (Frame.log scan.payloads).length)
    | .badLength => .error (openError .corruption "invalid WAL frame length")
    | .badChecksum => .error (openError .corruption "WAL checksum mismatch")

/-! ## Snapshots -/

def keyedSnapshotMagic : Bytes := ascii "OCTKEY01"

def KeyedDB.toSnapshot (db : KeyedDB) : KeyedSnapshot where
  sequence := db.sequence
  records := db.records
  dedupe := db.dedupeIDs.map fun id => db.dedupe.getD id {}

def KeyedDB.snapshotFile (db : KeyedDB) : Bytes :=
  sealEnvelope keyedSnapshotMagic db.toSnapshot.toJson

inductive SnapshotOp where
  | removeTmp
  | create
  | write
  | sync
  | close
  | rename
  | syncDirectory
  | truncate
  | seek
  | syncWal
  deriving DecidableEq, Repr

def snapshotOps : List SnapshotOp :=
  [.removeTmp, .create, .write, .sync, .close, .rename, .syncDirectory, .truncate, .seek, .syncWal]

def SnapshotOp.run (envelope : Bytes) (d : Directory) : SnapshotOp → Directory
  | .removeTmp => { d with snapshotTmp := none }
  | .create => { d with snapshotTmp := some [] }
  | .write => { d with snapshotTmp := some envelope }
  | .rename => { d with snapshot := d.snapshotTmp, snapshotTmp := none }
  | .truncate => { d with wal := some [] }
  | .sync | .close | .syncDirectory | .seek | .syncWal => d

def snapshotAfter (db : KeyedDB) (d : Directory) (n : Nat) : Directory :=
  (snapshotOps.take n).foldl (SnapshotOp.run db.snapshotFile) d

/-- A snapshot whose operation at the position of a fault, if any, fails. -/
def snapshotKeyed (db : KeyedDB) (d : Directory) (fault : Option (Nat × String)) :
    Directory × Option Error :=
  match fault with
  | none => (snapshotAfter db d snapshotOps.length, none)
  | some (n, message) =>
    ({ snapshotAfter db d n with snapshotTmp := none },
      some (storageError "snapshot_keyed" message))

/-- One record of a snapshot. The source visits them in no particular order. -/
def validateSnapshotRecord (db : KeyedDB) (entry : Bytes × Bytes) : Except Error Unit :=
  if entry.2.length > db.options.maxValueBytes then
    .error (openError .capacity "snapshot record exceeds configured value bound")
  else if entry.1 = [] ∨ entry.1.length > db.maxStoredKeyBytes ∨
      Json.valid entry.2 = false then
    .error (openError .corruption "snapshot record violates configured bounds")
  else .ok ()

/-- The loop over the retained decisions of a snapshot. -/
def loadDedupe (sequence : UInt64) (s : Replay) (r : KeyedWALRecord) : Except Error Replay :=
  if r.commandID = [] ∨ r.sequence = 0 ∨ r.sequence > sequence then
    .error (openError .corruption "invalid snapshot dedupe entry")
  else
    match validateKeyedRecord s.db r with
    | .error err => .error err
    | .ok () =>
      if r.sequence ≤ s.lastSequence then
        .error (openError .corruption "snapshot dedupe order is invalid")
      else if r.commandID ∈ s.db.dedupe then
        .error (openError .corruption "snapshot repeats a command ID")
      else
        .ok ⟨{ s.db with
          dedupe := s.db.dedupe.insert r.commandID r
          dedupeIDs := s.db.dedupeIDs ++ [r.commandID] }, r.sequence⟩

/-- The state a decoded snapshot stands for. -/
def loadSnapshot (db : KeyedDB) (snapshot : KeyedSnapshot) : Except Error KeyedDB :=
  if snapshot.records.size > db.options.maxRecords ∨
      snapshot.dedupe.length > db.options.dedupeHorizon then
    .error (openError .capacity "snapshot exceeds configured bounds")
  else
    match forM snapshot.records.toList (validateSnapshotRecord db) with
    | .error err => .error err
    | .ok () =>
      let db := { db with records := snapshot.records, sequence := snapshot.sequence }
      match snapshot.dedupe.foldlM (loadDedupe snapshot.sequence) { db := db } with
      | .error err => .error err
      | .ok s =>
        if snapshot.sequence ≠ 0 ∧
            (snapshot.dedupe = [] ∨ s.lastSequence ≠ snapshot.sequence) then
          .error (openError .corruption "snapshot dedupe frontier does not match sequence")
        else .ok s.db

def loadKeyedSnapshot (db : KeyedDB) (file : Option Bytes) : Except Error KeyedDB :=
  match file with
  | none => .ok db
  | some data =>
    match Envelope.unmarshal data with
    | none => .error (openError .corruption "decode snapshot envelope")
    | some envelope =>
      if envelope.magic ≠ keyedSnapshotMagic ∨ envelope.version ≠ 1 then
        .error (openError .incompatible "unsupported keyed snapshot")
      else if envelope.sha256 ≠ hexText (sha256 envelope.payload) then
        .error (openError .corruption "snapshot checksum mismatch")
      else
        match KeyedSnapshot.unmarshal envelope.payload with
        | none => .error (openError .corruption "decode snapshot")
        | some snapshot => loadSnapshot db snapshot

/-! ## Opening a store -/

def openStorage (db : KeyedDB) (d : Directory) : Except Error (KeyedDB × Directory) := do
  let d ← ensureKeyedFormat d db.format.contents
  let db ← loadKeyedSnapshot db d.snapshot
  let (db, wal) ← replayKeyedWAL db (d.wal.getD [])
  .ok (db, { d with wal := some wal })

def openKeyed (options : KeyedOptions) (format : KeyedFormat) (d : Directory) :
    Except Error (KeyedDB × Directory) := do
  let bounds ← normalizeKeyedOptions options
  openStorage { options := bounds, format := format } d

end OctetDB
