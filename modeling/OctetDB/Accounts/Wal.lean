import OctetDB.Accounts.Types
import OctetDB.Lib.Fold
import OctetDB.Lib.Frame

/-!
# The log of the account engine

The log is a header and one frame for each batch. A frame's payload is the number of its
records and the records, whose fields have fixed widths except for the command ID. A slice of
the source can be read past its end as far as the buffer behind it reaches, so the reader of a
record gets the whole rest of the buffer and the number of bytes in it that lie outside the
payload.
-/

namespace OctetDB.Accounts

def walFileVersion : UInt32 := 1
def walHeaderSize : Nat := 24
def maxWALFrameBytes : Nat := 64 <<< 20
def walFileMagic : Bytes := ascii "OCTWAL01"

/-- Why reading a file fails: with an error, or because an access is out of bounds. -/
inductive ReadError where
  | plain (message : String)
  | runtime (e : RuntimeError)
  | outOfBounds
  deriving DecidableEq, Repr

def unexpectedEOF : ReadError := .plain "unexpected EOF"

def failIf (c : Prop) [Decidable c] (err : ReadError) : Except ReadError Unit :=
  if c then .error err else .ok ()

theorem failIf_neg {c : Prop} [Decidable c] (h : ¬ c) (err : ReadError) :
    failIf c err = .ok () := if_neg h

/-! ## Words -/

def appendI64 (v : Int64) : Bytes := putUint64 v.toUInt64

def takeU32 (src : Bytes) : Except ReadError (UInt32 × Bytes) :=
  if src.length < 4 then .error .outOfBounds else .ok (uint32 src, src.drop 4)

def takeU64 (src : Bytes) : Except ReadError (UInt64 × Bytes) :=
  if src.length < 8 then .error .outOfBounds else .ok (uint64 src, src.drop 8)

def takeI64 (src : Bytes) : Except ReadError (Int64 × Bytes) :=
  (takeU64 src).map fun read => (read.1.toInt64, read.2)

def takeByte (src : Bytes) : Except ReadError (UInt8 × Bytes) :=
  match src with
  | [] => .error .outOfBounds
  | b :: rest => .ok (b, rest)

@[simp] theorem length_appendI64 (v : Int64) : (appendI64 v).length = 8 := length_putUint64 _

@[simp] theorem takeU32_append (v : UInt32) (rest : Bytes) :
    takeU32 (putUint32 v ++ rest) = .ok (v, rest) := by
  have enough : ¬ (putUint32 v ++ rest).length < 4 := by simp
  rw [takeU32, if_neg enough, uint32_putUint32, List.drop_left' (length_putUint32 v)]

@[simp] theorem takeU64_append (v : UInt64) (rest : Bytes) :
    takeU64 (putUint64 v ++ rest) = .ok (v, rest) := by
  have enough : ¬ (putUint64 v ++ rest).length < 8 := by simp
  rw [takeU64, if_neg enough, uint64_putUint64, List.drop_left' (length_putUint64 v)]

@[simp] theorem takeI64_append (v : Int64) (rest : Bytes) :
    takeI64 (appendI64 v ++ rest) = .ok (v, rest) := by
  simp [takeI64, appendI64, Except.map]

/-- Two flags in the low bits of a byte. -/
def flagByte (low high : Bool) : UInt8 :=
  (if low then 1 else 0) ||| (if high then 2 else 0)

@[simp] theorem flagByte_low (low high : Bool) : (flagByte low high &&& 1 != 0) = low := by
  cases low <;> cases high <;> rfl

@[simp] theorem flagByte_high (low high : Bool) : (flagByte low high &&& 2 != 0) = high := by
  cases low <;> cases high <;> rfl

/-! ## Records -/

def appendWALRecord (r : WalRecord) : Bytes :=
  putUint64 r.sequence ++ (putUint32 (UInt32.ofNat r.commandID.length) ++ (r.commandID ++
    (appendI64 r.kind ++ (putUint64 r.a ++ (putUint64 r.b ++ (appendI64 r.amount ++
    (flagByte r.accepted r.pendingActive :: (appendI64 r.reason ++ (appendI64 r.effect ++
    (appendI64 r.turns ++ (appendI64 r.newBalanceA ++ (appendI64 r.newBalanceB ++
    (appendI64 r.newStatus ++ (putUint64 r.expectedA ++ (putUint64 r.expectedB ++
    (putUint64 r.pendingTarget ++ appendI64 r.pendingAmount))))))))))))))))

/-- The source's count of the fixed bytes of a record; a record has eight more of them. -/
def walRecordFixed : Nat := 8 + 4 + 8 + 8 + 8 + 1 + 6 * 8 + 8 + 8 + 8 + 8

/-- Reads a record from the rest of a buffer whose last `spare` bytes are outside the payload. -/
def parseWALRecord (spare : Nat) (src : Bytes) : Except ReadError (WalRecord × Bytes) := do
  failIf (src.length < spare + walRecordFixed) unexpectedEOF
  let (sequence, src) ← takeU64 src
  let (length, src) ← takeU32 src
  let idLen := length.toNat
  failIf (idLen = 0 ∨ src.length < spare + idLen ∨
      src.length < spare + idLen + (walRecordFixed - 12))
    (.plain "invalid command ID length")
  let commandID := src.take idLen
  let src := src.drop idLen
  let (kind, src) ← takeI64 src
  let (a, src) ← takeU64 src
  let (b, src) ← takeU64 src
  let (amount, src) ← takeI64 src
  let (flags, src) ← takeByte src
  let (reason, src) ← takeI64 src
  let (effect, src) ← takeI64 src
  let (turns, src) ← takeI64 src
  let (newBalanceA, src) ← takeI64 src
  let (newBalanceB, src) ← takeI64 src
  let (newStatus, src) ← takeI64 src
  let (expectedA, src) ← takeU64 src
  let (expectedB, src) ← takeU64 src
  let (pendingTarget, src) ← takeU64 src
  let (pendingAmount, src) ← takeI64 src
  .ok ({ sequence, commandID, kind, a, b, amount, reason, effect, turns, newBalanceA, newBalanceB
         newStatus, expectedA, expectedB, pendingTarget, pendingAmount
         accepted := flags &&& 1 != 0, pendingActive := flags &&& 2 != 0 }, src)

def WalRecord.Loggable (r : WalRecord) : Prop :=
  r.commandID ≠ [] ∧ r.commandID.length < 2 ^ 32

theorem length_appendWALRecord (r : WalRecord) :
    (appendWALRecord r).length = 125 + r.commandID.length := by
  simp [appendWALRecord]; omega

theorem parseWALRecord_append {r : WalRecord} (loggable : r.Loggable) {spare : Nat} {rest : Bytes}
    (inside : spare ≤ rest.length) :
    parseWALRecord spare (appendWALRecord r ++ rest) = .ok (r, rest) := by
  obtain ⟨named, short⟩ := loggable
  have size := length_appendWALRecord r
  have positive := List.length_pos_iff.mpr named
  have length : (UInt32.ofNat r.commandID.length).toNat = r.commandID.length := by
    rw [UInt32.toNat_ofNat', Nat.mod_eq_of_lt short]
  have enough : ¬ (appendWALRecord r ++ rest).length < spare + walRecordFixed := by
    rw [List.length_append, size, walRecordFixed]; omega
  unfold parseWALRecord
  rw [failIf_neg enough]
  simp only [appendWALRecord, List.append_assoc, List.cons_append, takeU64_append, takeU32_append,
    bind, Except.bind, length]
  rw [failIf_neg (by simp [walRecordFixed, named]; omega)]
  simp [List.take_left', List.drop_left', takeByte]

/-! ## Frames -/

def walPayload (records : List WalRecord) : Bytes :=
  putUint32 (UInt32.ofNat records.length) ++ records.flatMap appendWALRecord

def ReadError.inRecord (i start : Nat) : ReadError → ReadError
  | .plain message => .plain s!"core WAL record {i} at {start}: {message}"
  | err => err

/-- The loop over the records of a payload, with the number of the next one. -/
def parseRecords (spare start : Nat) :
    Nat → Nat → Bytes → Except ReadError (List WalRecord × Bytes)
  | 0, _, src => .ok ([], src)
  | count + 1, i, src =>
    match parseWALRecord spare src with
    | .error err => .error (err.inRecord i start)
    | .ok (r, src) =>
      (parseRecords spare start count (i + 1) src).map fun read => (r :: read.1, read.2)

/-- The state of a scan: the position of the next frame and the records so far. -/
structure WalScan where
  pos : Nat
  records : List WalRecord

/-- Reads the payload of the frame at the position of the scan. The buffer goes on behind the
payload with the rest of the data and with the unused capacity of the buffer. -/
def scanFrame (data unused : Bytes) (after : UInt64) (s : WalScan) (payload : Bytes) :
    Except ReadError WalScan :=
  let behind := data.drop (s.pos + 4 + payload.length) ++ unused
  match parseRecords behind.length s.pos (uint32 payload).toNat 0 (payload.drop 4 ++ behind) with
  | .error err => .error err
  | .ok (records, rest) =>
    if rest.length ≠ behind.length then
      .error (.plain s!"core WAL trailing bytes at {s.pos}")
    else
      .ok ⟨s.pos + (payload.length + 8), s.records ++ records.filter (after < ·.sequence)⟩

def walHeader : Bytes :=
  let front := walFileMagic ++ (putUint32 walFileVersion ++ ascii "SAFEGO01")
  front ++ putUint32 (checksumIEEE front)

/-- The records of a log behind a sequence, and where its whole frames end. -/
def scanWAL (data unused : Bytes) (after : UInt64) : Except ReadError WalScan :=
  let version := uint32 (data.drop 8)
  if data.length ≥ 12 ∧ data.take 8 = walFileMagic ∧ version ≠ walFileVersion then
    .error (.runtime ⟨.recoveryIncompatible, s!"WAL format version {version}"⟩)
  else if data.length < walHeaderSize ∨ data.take 8 ≠ walFileMagic ∨
      uint32 (data.drop 20) ≠ checksumIEEE (data.take 20) then
    .error (.plain "invalid WAL header or format version")
  else
    let scan := Frame.scan 4 maxWALFrameBytes (data.drop walHeaderSize)
    match scan.payloads.foldlM (scanFrame data unused after) ⟨walHeaderSize, []⟩ with
    | .error err => .error err
    | .ok s =>
      match scan.stop with
      | .done | .torn => .ok s
      | .badLength => .error (.plain s!"invalid core WAL frame length at {s.pos}")
      | .badChecksum => .error (.plain s!"core WAL checksum failure at {s.pos}")

/-! ## Reading a log back -/

/-- The records of a batch that fit into one frame. -/
structure LoggableBatch (records : List WalRecord) : Prop where
  loggable : ∀ r ∈ records, r.Loggable
  fits : (walPayload records).length ≤ maxWALFrameBytes

theorem length_flatMap_appendWALRecord (records : List WalRecord) :
    records.length ≤ (records.flatMap appendWALRecord).length := by
  induction records with
  | nil => simp
  | cons r records ih =>
    simp only [List.flatMap_cons, List.length_append, List.length_cons, length_appendWALRecord]
    omega

variable {records : List WalRecord}

theorem LoggableBatch.count (batch : LoggableBatch records) :
    (uint32 (walPayload records)).toNat = records.length := by
  have short := batch.fits
  have many := length_flatMap_appendWALRecord records
  rw [walPayload, List.length_append, length_putUint32, maxWALFrameBytes] at short
  rw [walPayload, uint32_putUint32, UInt32.toNat_ofNat', Nat.mod_eq_of_lt (by omega)]

theorem LoggableBatch.frameFits (batch : LoggableBatch records) :
    Frame.Fits 4 maxWALFrameBytes (walPayload records) :=
  ⟨by simp [walPayload], batch.fits⟩

/-- The records of named commands whose frame fits can be logged. -/
theorem loggableBatch_of_fits {rs : List WalRecord} (named : ∀ r ∈ rs, r.commandID ≠ [])
    (fits : (walPayload rs).length ≤ maxWALFrameBytes) : LoggableBatch rs := by
  refine ⟨fun r mem => ⟨named r mem, ?_⟩, fits⟩
  have part : (appendWALRecord r).length ≤ (rs.flatMap appendWALRecord).length := by
    obtain ⟨before, after, rfl⟩ := List.append_of_mem mem
    simp only [List.flatMap_append, List.flatMap_cons, List.length_append]
    omega
  rw [length_appendWALRecord] at part
  rw [walPayload, List.length_append, length_putUint32, maxWALFrameBytes] at fits
  omega

theorem parseRecords_append (loggable : ∀ r ∈ records, r.Loggable) (start i : Nat) (rest : Bytes) :
    parseRecords rest.length start records.length i (records.flatMap appendWALRecord ++ rest) =
      .ok (records, rest) := by
  induction records generalizing i with
  | nil => rfl
  | cons r records ih =>
    obtain ⟨first, later⟩ := List.forall_mem_cons.mp loggable
    have read := parseWALRecord_append first
      (show rest.length ≤ (records.flatMap appendWALRecord ++ rest).length by simp)
    rw [List.flatMap_cons, List.append_assoc, List.length_cons, parseRecords, read]
    simp only [ih later, Except.map]

/-- A frame of the log reads as the records of its batch. -/
theorem scanFrame_walPayload (batch : LoggableBatch records) (data unused : Bytes) (after : UInt64)
    (s : WalScan) :
    scanFrame data unused after s (walPayload records) =
      .ok ⟨s.pos + (Frame.frame (walPayload records)).length,
        s.records ++ records.filter (after < ·.sequence)⟩ := by
  have body : (walPayload records).drop 4 = records.flatMap appendWALRecord :=
    List.drop_left' (length_putUint32 _)
  simp only [scanFrame, batch.count, body, parseRecords_append batch.loggable]
  rw [if_neg (by simp), Frame.length_frame]

theorem foldlM_scanFrame {batches : List (List WalRecord)}
    (loggable : ∀ batch ∈ batches, LoggableBatch batch) (data unused : Bytes) (after : UInt64)
    (s : WalScan) :
    (batches.map walPayload).foldlM (scanFrame data unused after) s =
      .ok ⟨s.pos + (Frame.log (batches.map walPayload)).length,
        s.records ++ batches.flatten.filter (after < ·.sequence)⟩ := by
  induction batches generalizing s with
  | nil => simp [pure, Except.pure]
  | cons batch batches ih =>
    obtain ⟨first, later⟩ := List.forall_mem_cons.mp loggable
    rw [List.map_cons, List.foldlM_cons, scanFrame_walPayload first]
    simp only [bind, Except.bind, ih later, Frame.log_cons, List.flatten_cons, List.filter_append,
      List.length_append, List.append_assoc, Nat.add_assoc]

@[simp] theorem length_walHeader : walHeader.length = walHeaderSize := by decide +kernel

theorem walHeader_checks : walHeader.take 8 = walFileMagic ∧
    uint32 (walHeader.drop 8) = walFileVersion ∧
    uint32 (walHeader.drop 20) = checksumIEEE (walHeader.take 20) := by
  decide +kernel

def walBytes (batches : List (List WalRecord)) : Bytes :=
  walHeader ++ Frame.log (batches.map walPayload)

/-- Behind its header a log is read frame by frame. -/
theorem scanWAL_header (rest unused : Bytes) (after : UInt64) :
    scanWAL (walHeader ++ rest) unused after =
      match (Frame.scan 4 maxWALFrameBytes rest).payloads.foldlM
        (scanFrame (walHeader ++ rest) unused after) ⟨walHeaderSize, []⟩ with
      | .error err => .error err
      | .ok s =>
        match (Frame.scan 4 maxWALFrameBytes rest).stop with
        | .done | .torn => .ok s
        | .badLength => .error (.plain s!"invalid core WAL frame length at {s.pos}")
        | .badChecksum => .error (.plain s!"core WAL checksum failure at {s.pos}") := by
  obtain ⟨magic, version, checksum⟩ := walHeader_checks
  have size := length_walHeader
  have front (n : Nat) (le : n ≤ 24) : (walHeader ++ rest).take n = walHeader.take n :=
    List.take_append_of_le_length (by rw [size, walHeaderSize]; omega)
  have uint32_front (n : Nat) (le : n + 4 ≤ 24) :
      uint32 ((walHeader ++ rest).drop n) = uint32 (walHeader.drop n) := by
    rw [uint32, uint32, List.drop_append_of_le_length (by rw [size, walHeaderSize]; omega),
      List.take_append_of_le_length (by rw [List.length_drop, size, walHeaderSize]; omega)]
  have behind : (walHeader ++ rest).drop walHeaderSize = rest := List.drop_left' size
  simp only [scanWAL]
  rw [uint32_front 8 (by omega), uint32_front 20 (by omega), front 8 (by omega),
    front 20 (by omega), if_neg (by simp [version]), if_neg ?_, behind]
  simp [magic, checksum, walHeaderSize]

/-- A log of whole batches, followed by the start of a frame, reads as the records of the
batches. -/
theorem scanWAL_walBytes {batches : List (List WalRecord)}
    (loggable : ∀ batch ∈ batches, LoggableBatch batch) {tail : Bytes}
    (torn : Frame.Torn 4 maxWALFrameBytes tail) (unused : Bytes) (after : UInt64) :
    scanWAL (walBytes batches ++ tail) unused after =
      .ok ⟨(walBytes batches).length, batches.flatten.filter (after < ·.sequence)⟩ := by
  have fits : ∀ p ∈ batches.map walPayload, Frame.Fits 4 maxWALFrameBytes p := by
    intro p mem
    obtain ⟨batch, member, rfl⟩ := List.mem_map.mp mem
    exact (loggable batch member).frameFits
  have word : maxWALFrameBytes < 2 ^ 32 := by decide
  have scanned : ∃ stop, (stop = .done ∨ stop = .torn) ∧
      Frame.scan 4 maxWALFrameBytes (Frame.log (batches.map walPayload) ++ tail) =
        ⟨batches.map walPayload, stop⟩ := by
    rcases torn with rfl | torn
    · exact ⟨.done, .inl rfl, by rw [List.append_nil]; exact Frame.scan_log fits word⟩
    · exact ⟨.torn, .inr rfl, Frame.scan_log_append fits word torn⟩
  obtain ⟨stop, stops, scan⟩ := scanned
  rw [walBytes, List.append_assoc, scanWAL_header, scan, foldlM_scanFrame loggable, List.nil_append,
    List.length_append, length_walHeader]
  rcases stops with rfl | rfl <;> rfl

/-- A log of batches of named records, followed by a part of another frame, reads as the records
of the batches, up to the start of the part. -/
theorem scanWAL_part_of_frame (batches : List (List WalRecord)) (further : List WalRecord)
    (named : ∀ records ∈ further :: batches, ∀ r ∈ records, r.commandID ≠ [])
    (fits : ∀ records ∈ further :: batches, (walPayload records).length ≤ maxWALFrameBytes)
    (tail : Bytes) (part : tail <+: Frame.frame (walPayload further))
    (strict : tail ≠ Frame.frame (walPayload further)) (unused : Bytes) (after : UInt64) :
    scanWAL (walBytes batches ++ tail) unused after =
      .ok ⟨(walBytes batches).length, batches.flatten.filter (after < ·.sequence)⟩ := by
  have loggable : ∀ records ∈ further :: batches, LoggableBatch records := fun records mem =>
    loggableBatch_of_fits (named records mem) (fits records mem)
  obtain ⟨first, later⟩ := List.forall_mem_cons.mp loggable
  have shorter : tail.length < (Frame.frame (walPayload further)).length :=
    lt_of_le_of_ne part.length_le fun same => strict (part.eq_of_length same)
  have torn := Frame.torn_take_frame first.frameFits (by decide) shorter
  rw [← List.prefix_iff_eq_take.mp part] at torn
  exact scanWAL_walBytes later torn unused after

/-- A batch of one record behind the start of a log, and three bytes of its frame once more. -/
theorem scanWAL_part_of_frame_three :
    let batch : List WalRecord := [{ sequence := 7, commandID := [97] }]
    scanWAL (walBytes [batch] ++ (Frame.frame (walPayload batch)).take 3) [] 6 =
      .ok ⟨(walBytes [batch]).length, batch⟩ :=
  scanWAL_part_of_frame [[{ sequence := 7, commandID := [97] }]]
    [{ sequence := 7, commandID := [97] }]
    (by decide) (by decide +kernel) _ (List.take_prefix _ _) (by decide +kernel) [] 6

/-! ## Reads past the end of a payload -/

section Bounds

variable {src : Bytes} {k n : Nat}

theorem take_inside (enough : k + n ≤ src.length) (behind : Bytes) :
    (src.drop k ++ behind).take n = (src.drop k).take n :=
  List.take_append_of_le_length (by simp; omega)

theorem drop_inside (enough : k + n ≤ src.length) (behind : Bytes) :
    (src.drop k ++ behind).drop n = src.drop (k + n) ++ behind := by
  rw [List.drop_append_of_le_length (by simp; omega), List.drop_drop]

theorem takeU64_inside (enough : k + 8 ≤ src.length) (behind : Bytes) :
    takeU64 (src.drop k ++ behind) = .ok (uint64 (src.drop k), src.drop (k + 8) ++ behind) := by
  rw [takeU64, if_neg (by simp; omega), uint64, uint64, take_inside enough, drop_inside enough]

theorem takeU64_front (enough : 8 ≤ src.length) (behind : Bytes) :
    takeU64 (src ++ behind) = .ok (uint64 src, src.drop 8 ++ behind) :=
  takeU64_inside (k := 0) (by omega) behind

theorem takeU32_inside (enough : k + 4 ≤ src.length) (behind : Bytes) :
    takeU32 (src.drop k ++ behind) = .ok (uint32 (src.drop k), src.drop (k + 4) ++ behind) := by
  rw [takeU32, if_neg (by simp; omega), uint32, uint32, take_inside enough, drop_inside enough]

theorem takeI64_inside (enough : k + 8 ≤ src.length) (behind : Bytes) :
    takeI64 (src.drop k ++ behind) =
      .ok ((uint64 (src.drop k)).toInt64, src.drop (k + 8) ++ behind) := by
  rw [takeI64, takeU64_inside enough, Except.map]

theorem takeByte_inside (enough : k + 1 ≤ src.length) (behind : Bytes) :
    takeByte (src.drop k ++ behind) = .ok (src.getD k 0, src.drop (k + 1) ++ behind) := by
  rw [List.drop_eq_getElem_cons enough, List.getD_eq_getElem _ _ enough]
  rfl

/-- The rest of a payload has all the bytes that the source counts for a record, but fewer than
a record takes. -/
def Short (src : Bytes) : Prop :=
  let idLen := (uint32 (src.drop 8)).toNat
  idLen ≠ 0 ∧ walRecordFixed + idLen ≤ src.length ∧ src.length < 125 + idLen

instance (src : Bytes) : Decidable (Short src) := inferInstanceAs (Decidable (_ ∧ _))

/-- What is read of a record comes from the payload, whatever the buffer has behind it. If there
is nothing behind it, no access is out of bounds. -/
def Inside (src : Bytes) : Prop :=
  parseWALRecord 0 src ≠ .error .outOfBounds ∧ ∀ behind : Bytes,
    parseWALRecord behind.length (src ++ behind) =
      (parseWALRecord 0 src).map fun read => (read.1, read.2 ++ behind)

theorem parseWALRecord_wide {src : Bytes} {idLen : Nat}
    (named : (uint32 (src.drop 8)).toNat = idLen)
    (positive : idLen ≠ 0) (enough : 125 + idLen ≤ src.length) :
    ∃ r rest, ∀ behind : Bytes,
      parseWALRecord behind.length (src ++ behind) = .ok (r, rest ++ behind) := by
  refine ⟨?record, ?rest, fun behind => ?_⟩
  rotate_left 2
  rw [parseWALRecord, failIf_neg (by simp [walRecordFixed]; omega)]
  simp (disch := omega) only [takeU64_front, bind, Except.bind, takeU32_inside, named]
  rw [failIf_neg (by simp [walRecordFixed]; omega)]
  simp (disch := omega) only [take_inside, drop_inside, takeU64_inside, takeI64_inside,
    takeByte_inside]
  rfl

theorem parseWALRecord_short {src : Bytes} (short : Short src) :
    parseWALRecord 0 src = .error .outOfBounds := by
  obtain ⟨named, least, most⟩ := short
  simp only [walRecordFixed] at least
  rw [← List.append_nil src, parseWALRecord, failIf_neg (by simp [walRecordFixed]; omega)]
  simp (disch := omega) only [takeU64_front, bind, Except.bind, takeU32_inside]
  rw [failIf_neg (by simp [walRecordFixed]; omega)]
  simp (disch := omega) only [take_inside, drop_inside, takeU64_inside, takeI64_inside,
    takeByte_inside]
  rw [takeI64, takeU64, if_pos (by simp; omega)]
  rfl

theorem inside_of_reads {src : Bytes} (result : Except ReadError (WalRecord × Bytes))
    (bounded : result ≠ .error .outOfBounds) (reads : ∀ behind : Bytes,
      parseWALRecord behind.length (src ++ behind) =
        result.map fun read => (read.1, read.2 ++ behind)) : Inside src := by
  have alone := reads []
  cases result <;> simp_all [Inside, Except.map]

/-- Reading a record stays inside the payload unless the rest of it is short. -/
theorem inside_iff (src : Bytes) : Inside src ↔ ¬ Short src := by
  constructor
  · intro inside short
    exact inside.1 (parseWALRecord_short short)
  · intro wide
    by_cases few : src.length < walRecordFixed
    · refine inside_of_reads (.error unexpectedEOF) (by simp [unexpectedEOF]) fun behind => ?_
      rw [parseWALRecord, failIf, if_pos (by simp; omega)]
      rfl
    by_cases bad : (uint32 (src.drop 8)).toNat = 0 ∨
        src.length < walRecordFixed + (uint32 (src.drop 8)).toNat
    · refine inside_of_reads (.error (.plain "invalid command ID length")) (by simp)
        fun behind => ?_
      rw [parseWALRecord, failIf_neg (by simp; omega)]
      rw [walRecordFixed] at bad few
      simp (disch := omega) only [takeU64_front, bind, Except.bind, takeU32_inside]
      rw [failIf, if_pos (by simp [walRecordFixed]; omega)]
      rfl
    · obtain ⟨named, enough⟩ := not_or.mp bad
      have long : 125 + (uint32 (src.drop 8)).toNat ≤ src.length :=
        not_lt.mp fun few => wide ⟨named, not_lt.mp enough, few⟩
      obtain ⟨r, rest, reads⟩ := parseWALRecord_wide rfl named long
      exact inside_of_reads (.ok (r, rest)) (by simp) reads

/-- No record that is read is short. -/
def Regular : Nat → Bytes → Prop
  | 0, _ => True
  | count + 1, src => ¬ Short src ∧
    ∀ r rest, parseWALRecord 0 src = .ok (r, rest) → Regular count rest

theorem parseRecords_inside {count : Nat} {src : Bytes}
    (regular : Regular count src) (start i : Nat) :
    parseRecords 0 start count i src ≠ .error .outOfBounds ∧ ∀ behind : Bytes,
      parseRecords behind.length start count i (src ++ behind) =
        (parseRecords 0 start count i src).map fun read => (read.1, read.2 ++ behind) := by
  induction count generalizing src i with
  | zero => exact ⟨nofun, fun _ => rfl⟩
  | succ count ih =>
    obtain ⟨bounded, inside⟩ := (inside_iff src).mpr regular.1
    simp only [parseRecords, inside]
    cases read : parseWALRecord 0 src with
    | error err =>
      refine ⟨fun failed => ?_, fun _ => rfl⟩
      cases err with
      | outOfBounds => exact bounded read
      | plain message | runtime e => cases failed
    | ok first =>
      obtain ⟨later, same⟩ := ih (regular.2 first.1 first.2 read) (i + 1)
      simp only [Except.map, same]
      cases rest : parseRecords 0 start count (i + 1) first.2 with
      | error err => exact ⟨by simpa [rest] using later, fun _ => rfl⟩
      | ok read => exact ⟨nofun, fun _ => rfl⟩

def scanPayload (after : UInt64) (s : WalScan) (payload : Bytes) : Except ReadError WalScan :=
  match parseRecords 0 s.pos (uint32 payload).toNat 0 (payload.drop 4) with
  | .error err => .error err
  | .ok (records, rest) =>
    if rest ≠ [] then .error (.plain s!"core WAL trailing bytes at {s.pos}")
    else .ok ⟨s.pos + (payload.length + 8), s.records ++ records.filter (after < ·.sequence)⟩

theorem scanFrame_inside {payload : Bytes}
    (regular : Regular (uint32 payload).toNat (payload.drop 4)) (data unused : Bytes)
    (after : UInt64) (s : WalScan) :
    scanFrame data unused after s payload = scanPayload after s payload ∧
      scanPayload after s payload ≠ .error .outOfBounds := by
  obtain ⟨bounded, same⟩ := parseRecords_inside regular s.pos 0
  simp only [scanFrame, scanPayload, same]
  cases read : parseRecords 0 s.pos (uint32 payload).toNat 0 (payload.drop 4) with
  | error err => exact ⟨rfl, by simpa [read] using bounded⟩
  | ok read =>
    refine ⟨?_, by grind⟩
    simp only [Except.map, List.length_append, Nat.add_eq_right, List.length_eq_zero_iff, ne_eq]

/-- Nothing is short where the records are read without an access out of bounds. -/
theorem regular_of_bounded {count : Nat} {src : Bytes} {start i : Nat}
    (bounded : parseRecords 0 start count i src ≠ .error .outOfBounds) : Regular count src := by
  induction count generalizing src i with
  | zero => trivial
  | succ count ih =>
    rw [parseRecords] at bounded
    refine ⟨fun short => bounded ?_, fun r rest read => ih (i := i + 1) fun failed => bounded ?_⟩
    · rw [parseWALRecord_short short]
      rfl
    · simp only [read, failed]
      rfl

/-- No record that the loop over the payloads reads is short. -/
def RegularFrames (after : UInt64) : List Bytes → WalScan → Prop
  | [], _ => True
  | p :: payloads, s => Regular (uint32 p).toNat (p.drop 4) ∧
    ∀ t, scanPayload after s p = .ok t → RegularFrames after payloads t

/-- The loop reads each payload by itself, and never out of bounds, exactly if no record that it
reads is short. -/
theorem foldlM_scanFrame_inside (data unused : Bytes) (after : UInt64) (payloads : List Bytes)
    (s : WalScan) :
    payloads.foldlM (scanFrame data unused after) s = payloads.foldlM (scanPayload after) s ∧
      payloads.foldlM (scanPayload after) s ≠ .error .outOfBounds ↔
    RegularFrames after payloads s := by
  induction payloads generalizing s with
  | nil => exact ⟨fun _ => trivial, fun _ => ⟨rfl, nofun⟩⟩
  | cons p payloads ih =>
    simp only [List.foldlM_cons]
    constructor
    · rintro ⟨same, bounded⟩
      have regular : Regular (uint32 p).toNat (p.drop 4) := by
        refine @regular_of_bounded _ _ s.pos 0 fun failed => bounded ?_
        simp only [scanPayload, failed]
        rfl
      refine ⟨regular, fun t read => (ih t).mp ?_⟩
      rw [(scanFrame_inside regular data unused after s).1, read] at same
      rw [read] at bounded
      exact ⟨same, bounded⟩
    · rintro ⟨regular, later⟩
      obtain ⟨same, bounded⟩ := scanFrame_inside regular data unused after s
      rw [same]
      cases read : scanPayload after s p with
      | error err => exact ⟨rfl, by simpa [read, bind, Except.bind] using bounded⟩
      | ok t => exact (ih t).mpr (later t read)

/-- Reading a record at any position of a payload stays inside it exactly if the rest is not
short. The frames of a file are read by themselves and without an access out of bounds exactly if
no record that is read is short. -/
theorem records_read_inside_iff (payload : Bytes) (pos : Nat) (data unused : Bytes)
    (after : UInt64) :
    let payloads := (Frame.scan 4 maxWALFrameBytes (data.drop walHeaderSize)).payloads
    let start : WalScan := ⟨walHeaderSize, []⟩
    (Inside (payload.drop pos) ↔ ¬ Short (payload.drop pos)) ∧
      (payloads.foldlM (scanFrame data unused after) start =
          payloads.foldlM (scanPayload after) start ∧
        payloads.foldlM (scanPayload after) start ≠ .error .outOfBounds ↔
      RegularFrames after payloads start) ∧
      (RegularFrames after payloads start → scanWAL data unused after ≠ .error .outOfBounds) := by
  intro payloads start
  have loop := foldlM_scanFrame_inside data unused after payloads start
  refine ⟨inside_iff _, loop, fun regular => ?_⟩
  obtain ⟨same, bounded⟩ := loop.mpr regular
  rw [← same] at bounded
  unfold scanWAL
  grind

set_option maxRecDepth 8000 in
/-- A file of 511 bytes in a buffer of 512: the last field of its record takes the checksum of
the frame and the unused byte, and goes on behind the buffer. -/
theorem short_record_out_of_bounds :
    let payload := putUint32 1 ++
      (appendWALRecord { commandID := List.replicate 358 97 }).take 475
    let data := walHeader ++ Frame.frame payload
    data.length = 511 ∧ Short (payload.drop 4) ∧ ¬ Inside (payload.drop 4) ∧
      scanWAL data [0] 0 = .error .outOfBounds := by
  intro payload data
  have short : Short (payload.drop 4) := by decide +kernel
  have frame : scanFrame data [0] 0 ⟨walHeaderSize, []⟩ payload =
      .error .outOfBounds := failure_eq_some.mp (by decide +kernel)
  refine ⟨by decide +kernel, short, fun inside => (inside_iff _).mp inside short, ?_⟩
  rw [scanWAL_header, Frame.scan_frame ⟨by decide +kernel, by decide +kernel⟩ (by decide),
    List.foldlM_cons, frame]
  rfl

/-- A whole record, alone and in the frame of a file. -/
theorem records_read_inside_whole :
    let payload := walPayload [{ sequence := 1, commandID := [97] }]
    Inside (payload.drop 4) ∧
      scanWAL (walHeader ++ Frame.frame payload) [] 0 ≠ .error .outOfBounds := by
  intro payload
  have wide : ¬ Short (payload.drop 4) := by decide +kernel
  have payloads : (Frame.scan 4 maxWALFrameBytes
      ((walHeader ++ Frame.frame payload).drop walHeaderSize)).payloads = [payload] := by
    rw [List.drop_left' length_walHeader,
      Frame.scan_frame ⟨by decide +kernel, by decide +kernel⟩ (by decide)]
  have count : (uint32 payload).toNat = 1 := by decide +kernel
  obtain ⟨inside, -, scans⟩ :=
    records_read_inside_iff payload 4 (walHeader ++ Frame.frame payload) [] 0
  refine ⟨inside.mpr wide, scans ?_⟩
  rw [payloads]
  refine ⟨?_, fun _ _ => trivial⟩
  rw [count]
  exact ⟨wide, fun _ _ _ => trivial⟩

end Bounds

end OctetDB.Accounts
