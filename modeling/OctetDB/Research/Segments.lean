import OctetDB.Research.Log

/-!
# Segments of the log

The log is a directory of segments, each named by the sequence of the first record in it. A
segment has a header, frames, and a footer once it is closed. Only the segment with the greatest
name may lack its footer: what is behind its last whole frame is taken for a torn write and cut
off when the log is opened.

File operations act on a disk that knows of every file how much of it a sync has made durable.
The storage keeps the disks behind each operation of a call, so that a crash can be put behind any
of them.
-/

namespace OctetDB.Research

open Accounts

def m1WALVersion : Nat := 3
def m1WALMagic : Bytes := ascii "OCTWAL01"
def m1EndMagic : Bytes := ascii "OCTEND01"
def m1SchemaID : Bytes := ascii "octetdb-write/account-state/v1"
def m1GoProgramID : Bytes := ascii "go-account-control/v1"
def segmentHeaderSize : Nat := 32
def segmentFooterSize : Nat := 24

def segmentName (id : UInt64) : String :=
  let digits := toString id.toNat
  "segment-" ++ "".pushn '0' (20 - digits.length) ++ digits ++ ".wal"

def encodeSegmentHeader (id first : UInt64) : Bytes :=
  let b := m1WALMagic ++ (putUint32BE (UInt32.ofNat m1WALVersion) ++
    (putUint64BE id ++ putUint64BE first))
  b ++ putUint32BE (checksumIEEE b)

def encodeSegmentFooter (last : UInt64) (records : Nat) : Bytes :=
  let b := m1EndMagic ++ (putUint64BE last ++ putUint32BE (UInt32.ofNat records))
  b ++ putUint32BE (checksumIEEE b)

structure SegmentMeta where
  id : UInt64
  first : UInt64 := 0
  last : UInt64 := 0
  records : Nat := 0
  closed : Bool := false
  deriving DecidableEq, Repr

/-! ## Scanning -/

/-- Why the log cannot be read. What the JSON reader says of a record is left out. -/
inductive ScanError where
  | message (text : String)
  | decode (segment : String)
  deriving DecidableEq, Repr

/-- Where a segment is read: the records of the log so far, and the place in the segment. -/
structure Cursor where
  out : List LogRecord
  expectedSeq : UInt64
  last : UInt64
  offset : Nat
  count : Nat
  deriving DecidableEq, Repr

section Scan

variable (after : UInt64) (programID : Bytes)

/-- Takes a record whose payload has the given length; a record that a snapshot covers is
counted only. -/
def Cursor.take (c : Cursor) (length : Nat) (record : LogRecord) : Except ScanError Cursor :=
  let version := record.version
  let sequence := record.sequence
  if version ≠ Int64.ofNat m1WALVersion then
    .error (.message s!"unsupported WAL record version {version}")
  else if record.schemaID ≠ m1SchemaID ∨ record.programID ≠ programID then
    .error (.message s!"incompatible WAL identity at sequence {sequence}")
  else if sequence < c.expectedSeq then
    if sequence ≤ after then
      .ok { c with offset := c.offset + (8 + length), count := c.count + 1 }
    else .error (.message s!"out-of-order sequence {sequence}")
  else if sequence ≠ c.expectedSeq then
    .error (.message s!"missing sequence before {sequence}")
  else
    .ok
      { out := c.out ++ [record]
        expectedSeq := c.expectedSeq + 1
        last := sequence
        offset := c.offset + (8 + length)
        count := c.count + 1 }

/-- Reads the frames of a segment, and says where it is to be cut off; `fuel` bounds their
number. -/
def scanRecords (name : String) (closed : Bool) :
    Nat → Bytes → Cursor → Except ScanError (Cursor × Option Nat)
  | 0, _, c => .ok (c, none)
  | fuel + 1, r, c =>
    let length := (uint32BE r).toNat
    let body := r.drop 4
    let payload := body.take length
    let offset := c.offset
    let short : Except ScanError (Cursor × Option Nat) :=
      if closed then .error (.message s!"truncated closed segment {name}")
      else .ok (c, some offset)
    if r = [] then .ok (c, none)
    else if r.length < 4 then short
    else if length = 0 ∨ length > LogRecord.maxRecordBytes then
      .error (.message s!"invalid record length in {name} at {offset}")
    else if body.length < length + 4 then short
    else if checksumIEEE payload ≠ uint32BE (body.drop length) then
      .error (.message s!"checksum failure in {name} at {offset}")
    else
      match LogRecord.unmarshalJSON payload with
      | none => .error (.decode name)
      | some record =>
        match c.take after programID length record with
        | .error err => .error err
        | .ok c => scanRecords name closed fuel (body.drop (length + 4)) c

/-- The log that has been read. -/
structure Scan where
  out : List LogRecord := []
  metas : List SegmentMeta := []
  expectedSeq : UInt64
  /-- Where the last segment is to be cut off. -/
  truncated : Option Nat := none
  deriving DecidableEq, Repr

/-- The bytes stop like those of a closed segment. -/
def EndsClosed (data : Bytes) : Prop :=
  segmentHeaderSize + segmentFooterSize ≤ data.length ∧
    (data.drop (data.length - segmentFooterSize)).take 8 = m1EndMagic

instance (data : Bytes) : Decidable (EndsClosed data) := inferInstanceAs (Decidable (_ ∧ _))

/-- Reads a segment behind those that have been read; `final` says that it is the last one. -/
def scanSegment (final : Bool) (s : Scan) (id : UInt64) (data : Bytes) : Except ScanError Scan :=
  let name := segmentName id
  let footer := data.drop (data.length - segmentFooterSize)
  let closed := decide (EndsClosed data)
  let body := (data.take (data.length - if closed then segmentFooterSize else 0)).drop
    segmentHeaderSize
  let records := (uint32BE (footer.drop 16)).toNat
  let start : Cursor :=
    { out := s.out
      expectedSeq := s.expectedSeq
      last := if closed then uint64BE (footer.drop 8) else 0
      offset := segmentHeaderSize
      count := 0 }
  if data.length < segmentHeaderSize ∨ data.take 8 ≠ m1WALMagic ∨
      uint32BE (data.drop 8) ≠ UInt32.ofNat m1WALVersion ∨
      uint32BE (data.drop 28) ≠ checksumIEEE (data.take 28) then
    .error (.message s!"invalid segment header {name}")
  else if uint64BE (data.drop 12) ≠ id then
    .error (.message s!"segment identity mismatch {name}")
  else if closed ∧ uint32BE (footer.drop 20) ≠ checksumIEEE (footer.take 20) then
    .error (.message s!"invalid segment footer {name}")
  else if ¬ closed ∧ ¬ final then
    .error (.message s!"closed segment {name} has no valid footer")
  else
    match scanRecords after programID name closed (body.length + 1) body start with
    | .error err => .error err
    | .ok (c, cut) =>
      if closed ∧ c.count ≠ records then
        .error (.message s!"record count mismatch in {name}")
      else
        .ok
          { out := c.out
            metas := s.metas ++ [
              { id := id
                first := uint64BE (data.drop 20)
                last := c.last
                records := c.count
                closed := closed }]
            expectedSeq := c.expectedSeq
            truncated := cut <|> s.truncated }

def scanFiles (s : Scan) : List (UInt64 × Bytes) → Except ScanError Scan
  | [] => .ok s
  | (id, data) :: files =>
    match scanSegment after programID files.isEmpty s id data with
    | .error err => .error err
    | .ok t => scanFiles t files

/-- Reads the segments of a directory in the order of their names. -/
def scanSegments (dir : List (UInt64 × Bytes)) : Except ScanError Scan :=
  scanFiles after programID { expectedSeq := after + 1 }
    (dir.insertionSort fun a b => a.1 ≤ b.1)

end Scan

/-! ## Files and crashes -/

structure File where
  data : Bytes := []
  /-- How many bytes a sync has made durable. -/
  synced : Nat := 0
  /-- What the last write wrote. -/
  tail : Bytes := []
  deriving DecidableEq, Repr

/-- The files of the log in the order in which they were created. -/
abbrev Disk := List (UInt64 × File)

namespace Disk

def create (id : UInt64) (d : Disk) : Disk := d ++ [(id, ({} : File))]

def change (id : UInt64) (f : File → File) (d : Disk) : Disk :=
  d.map fun e => if e.1 = id then (e.1, f e.2) else e

def write (id : UInt64) (bs : Bytes) (d : Disk) : Disk :=
  d.change id fun f => { f with data := f.data ++ bs, tail := bs }

def sync (id : UInt64) (d : Disk) : Disk := d.change id fun f => { f with synced := f.data.length }

/-- What a crash may leave of the files: of each one what was durable, and any part of the rest
from its front. -/
def Leaves (d : Disk) (image : List (UInt64 × Bytes)) : Prop :=
  List.Forall₂ (fun e i => i.1 = e.1 ∧ ∃ n, e.2.synced ≤ n ∧ i.2 = e.2.data.take n) d image

/-- The files as they are found after a crash. -/
def found (image : List (UInt64 × Bytes)) : Disk :=
  image.map fun i => (i.1, { data := i.2, synced := i.2.length })

end Disk

/-! ## The storage -/

structure M1Storage where
  segmentRecords : Nat
  /-- The segment that is open. -/
  file : Option SegmentMeta := none
  disk : Disk := []
  /-- The disk behind each file operation of the current call. -/
  trail : List Disk := []
  deriving Repr

namespace M1Storage

/-- A file operation. -/
def act (s : M1Storage) (operation : Disk → Disk) : M1Storage :=
  { s with disk := operation s.disk, trail := s.trail ++ [operation s.disk] }

/-- The open segment; without one a segment is created, unless there is a file of its name. -/
def ensureSegment (s : M1Storage) (first : UInt64) : Except String (M1Storage × SegmentMeta) :=
  match s.file with
  | some segment => .ok (s, segment)
  | none =>
    if s.disk.any fun e => e.1 = first then .error "file exists"
    else
      let segment : SegmentMeta := { id := first, first := first }
      let t := (s.act (Disk.create first)).act (Disk.write first (encodeSegmentHeader first first))
      .ok ({ t with file := some segment }, segment)

def closeSegment (s : M1Storage) (sync : Bool) : M1Storage :=
  match s.file with
  | none => s
  | some segment =>
    let t := s.act (Disk.write segment.id (encodeSegmentFooter segment.last segment.records))
    let u := if sync then t.act (Disk.sync segment.id) else t
    { u with file := none }

def writeRecord (s : M1Storage) (segment : SegmentMeta) (record : LogRecord) (framed : Bytes) :
    M1Storage :=
  { s.act (Disk.write segment.id framed) with
    file := some { segment with records := segment.records + 1, last := record.sequence } }

def appendRecord (s : M1Storage) (record : LogRecord) : Except String M1Storage := do
  let (s, segment) ← (s.ensureSegment record.sequence).mapError ("ensure WAL segment: " ++ ·)
  let (s, segment) ←
    if segment.records ≥ s.segmentRecords then
      ((s.closeSegment true).ensureSegment record.sequence).mapError
        ("ensure rotated WAL segment: " ++ ·)
    else .ok (s, segment)
  let framed ← record.frame
  .ok (s.writeRecord segment record framed)

def appendGroup (s : M1Storage) (records : List LogRecord) : Except String M1Storage := do
  let s ← records.foldlM appendRecord { s with trail := [] }
  match s.file with
  | none => .error "sync WAL group: invalid argument"
  | some segment => .ok (s.act (Disk.sync segment.id))

end M1Storage

def openM1Storage (segmentRecords : Int) (after : UInt64) (programID : Bytes)
    (image : List (UInt64 × Bytes)) : Except ScanError (M1Storage × List LogRecord) :=
  let limit := if segmentRecords ≤ 0 then 4096 else segmentRecords.toNat
  match scanSegments after programID image with
  | .error err => .error err
  | .ok scan =>
    match scan.metas.getLast? with
    | none => .ok ({ segmentRecords := limit, disk := Disk.found image }, scan.out)
    | some last =>
      if last.closed then .ok ({ segmentRecords := limit, disk := Disk.found image }, scan.out)
      else
        let cut (f : File) : File :=
          match scan.truncated with
          | none => f
          | some n => { f with data := f.data.take n, synced := n }
        .ok
          ({ segmentRecords := limit
             file := some last
             disk := (Disk.found image).change last.id cut }, scan.out)

/-! ## Reading what was written -/

/-- The record is one the log of the program reads back. -/
structure LogRecord.Sound (programID : Bytes) (r : LogRecord) : Prop where
  readable : r.Readable
  version : r.version = Int64.ofNat m1WALVersion
  schemaID : r.schemaID = m1SchemaID
  programID : r.programID = programID
  fits : r.marshalJSON.length ≤ LogRecord.maxRecordBytes

/-- The records are numbered from `n` on. -/
def Numbered : Nat → List LogRecord → Prop
  | _, [] => True
  | n, r :: rs => r.sequence = UInt64.ofNat n ∧ Numbered (n + 1) rs

theorem numbered_append {n : Nat} {rs ss : List LogRecord} :
    Numbered n (rs ++ ss) ↔ Numbered n rs ∧ Numbered (n + rs.length) ss := by
  induction rs generalizing n with
  | nil => simp [Numbered]
  | cons r rs ih =>
    simp only [List.cons_append, Numbered, ih, List.length_cons, and_assoc]
    rw [Nat.add_right_comm, Nat.add_assoc n]

def frames (rs : List LogRecord) : Bytes := rs.flatMap LogRecord.framed

@[simp] theorem frames_nil : frames [] = [] := rfl
@[simp] theorem frames_cons (r : LogRecord) (rs : List LogRecord) :
    frames (r :: rs) = r.framed ++ frames rs := rfl
@[simp] theorem frames_append (rs ss : List LogRecord) :
    frames (rs ++ ss) = frames rs ++ frames ss := by simp [frames]

theorem length_le_frames (rs : List LogRecord) : rs.length ≤ (frames rs).length := by
  induction rs with
  | nil => simp
  | cons r rs ih =>
    simp only [frames_cons, List.length_append, LogRecord.length_framed, List.length_cons]
    omega

/-- The cursor behind records it has taken. -/
def Cursor.behind (c : Cursor) (rs : List LogRecord) : Cursor where
  out := c.out ++ rs
  expectedSeq := c.expectedSeq + UInt64.ofNat rs.length
  last := (rs.getLast?.map LogRecord.sequence).getD c.last
  offset := c.offset + (frames rs).length
  count := c.count + rs.length

/-- Bytes that are not a whole frame: nothing, a part of a length, or a length and a part of
what belongs to it. -/
def TornFrame (tail : Bytes) : Prop :=
  tail.length < 4 ∨ (uint32BE tail).toNat ≠ 0 ∧
    (uint32BE tail).toNat ≤ LogRecord.maxRecordBytes ∧
    tail.length < (uint32BE tail).toNat + 8

section Reading

variable {after : UInt64} {programID : Bytes} {name : String} {closed : Bool} {c : Cursor}
  {r : LogRecord} {rs : List LogRecord} {tail : Bytes}

theorem LogRecord.Sound.length_word (sound : r.Sound programID) :
    (UInt32.ofNat r.marshalJSON.length).toNat = r.marshalJSON.length := by
  have fits := sound.fits
  rw [LogRecord.maxRecordBytes] at fits
  rw [UInt32.toNat_ofNat']
  omega

theorem scanRecords_framed (sound : r.Sound programID) (next : r.sequence = c.expectedSeq)
    (fuel : Nat) (rest : Bytes) :
    scanRecords after programID name closed (fuel + 1) (r.framed ++ rest) c =
      scanRecords after programID name closed fuel rest (c.behind [r]) := by
  have fits := sound.fits
  have positive := r.marshalJSON_pos
  have length : (uint32BE (r.framed ++ rest)).toNat = r.marshalJSON.length := by
    rw [LogRecord.framed, List.append_assoc, uint32BE_putUint32BE, sound.length_word]
  have body : (r.framed ++ rest).drop 4 =
      r.marshalJSON ++ (putUint32BE (checksumIEEE r.marshalJSON) ++ rest) := by
    simp [LogRecord.framed]
  have rest' : (r.marshalJSON ++ (putUint32BE (checksumIEEE r.marshalJSON) ++ rest)).drop
      (r.marshalJSON.length + 4) = rest := by
    rw [← List.drop_drop, List.drop_left]
    simp
  have taken : c.take after programID r.marshalJSON.length r = .ok (c.behind [r]) := by
    simp [Cursor.take, Cursor.behind, sound.version, sound.schemaID, sound.programID, next]
    omega
  have nonempty : r.framed ++ rest ≠ [] := by
    intro h
    simpa using congrArg List.length h
  simp only [scanRecords, length, body, rest', List.take_left, List.drop_left, uint32BE_putUint32BE,
    sound.readable.unmarshalJSON_marshalJSON, taken]
  rw [if_neg nonempty, if_neg (by simp; omega), if_neg (by omega), if_neg (by simp),
    if_neg (by simp)]

theorem Cursor.behind_behind (c : Cursor) (r : LogRecord) (rs : List LogRecord) :
    (c.behind [r]).behind rs = c.behind (r :: rs) := by
  have last : (rs.getLast?.map LogRecord.sequence).getD r.sequence =
      ((r :: rs).getLast?.map LogRecord.sequence).getD c.last := by
    cases rs with
    | nil => rfl
    | cons s rs => rw [List.getLast?_cons_cons]; cases h : (s :: rs).getLast? <;> simp_all
  simp [Cursor.behind, last, UInt64.add_assoc, UInt64.add_comm 1, Nat.add_assoc, Nat.add_comm 1]

/-- The frames of numbered records are read one after the other. -/
theorem scanRecords_frames {n : Nat} (sound : ∀ r ∈ rs, r.Sound programID)
    (numbered : Numbered n rs) (expected : c.expectedSeq = UInt64.ofNat n) (fuel : Nat) :
    scanRecords after programID name closed (fuel + rs.length) (frames rs ++ tail) c =
      scanRecords after programID name closed fuel tail (c.behind rs) := by
  induction rs generalizing c n with
  | nil => simp [Cursor.behind]
  | cons r rs ih =>
    obtain ⟨first, later⟩ := numbered
    have rest := @ih (c.behind [r]) (n + 1) (fun s mem => sound s (List.mem_cons_of_mem _ mem))
      later (by simp [Cursor.behind, expected])
    rw [frames_cons, List.append_assoc, List.length_cons, ← Nat.add_assoc,
      scanRecords_framed (sound r List.mem_cons_self) (by rw [first, expected]), rest,
      Cursor.behind_behind]

theorem scanRecords_torn (torn : TornFrame tail) (fuel : Nat) :
    scanRecords after programID name false (fuel + 1) tail c =
      .ok (c, if tail = [] then none else some c.offset) := by
  by_cases empty : tail = []
  · simp [scanRecords, empty]
  by_cases short : tail.length < 4
  · simp [scanRecords, empty, short]
  obtain ⟨positive, bounded, part⟩ := torn.resolve_left short
  simp only [scanRecords, if_neg empty, if_neg short, Bool.false_eq_true, if_false]
  rw [if_neg (by omega), if_pos (by simp; omega)]

end Reading

/-- The start of a frame that is not the whole frame. -/
theorem tornFrame_take {programID : Bytes} {r : LogRecord} (sound : r.Sound programID) {n : Nat}
    (strict : n < r.framed.length) : TornFrame (r.framed.take n) := by
  have positive := r.marshalJSON_pos
  have fits := sound.fits
  have size : (r.framed.take n).length = n := by
    rw [List.length_take]
    omega
  by_cases short : n < 4
  · exact .inl (by omega)
  have word : (uint32BE (r.framed.take n)).toNat = r.marshalJSON.length := by
    have whole := uint32BE_putUint32BE (UInt32.ofNat r.marshalJSON.length)
      (r.marshalJSON ++ putUint32BE (checksumIEEE r.marshalJSON))
    rw [← LogRecord.framed] at whole
    rw [uint32BE, List.take_take, min_eq_left (by omega), ← uint32BE, whole, sound.length_word]
  rw [LogRecord.length_framed] at strict
  exact .inr ⟨by omega, by omega, by omega⟩

/-- Frames cut anywhere are the frames of the first records and a torn one; records whose frames
are before the cut are among them. -/
theorem take_frames {programID : Bytes} {rs : List LogRecord}
    (sound : ∀ r ∈ rs, r.Sound programID) (n : Nat) : ∃ before behind tail,
      rs = before ++ behind ∧ (frames rs).take n = frames before ++ tail ∧ TornFrame tail ∧
        ∀ p, p <+: rs → (frames p).length ≤ n → p <+: before := by
  induction rs generalizing n with
  | nil => exact ⟨[], [], [], rfl, by simp, .inl (by simp), fun p sub _ => sub⟩
  | cons r rs ih =>
    obtain ⟨first, later⟩ := List.forall_mem_cons.mp sound
    by_cases whole : r.framed.length ≤ n
    · obtain ⟨before, behind, tail, rfl, cut, torn, covers⟩ := ih later (n - r.framed.length)
      refine ⟨r :: before, behind, tail, rfl, ?_, torn, fun p sub room => ?_⟩
      · rw [frames_cons, List.take_append, List.take_of_length_le whole, cut, frames_cons,
          List.append_assoc]
      · rcases List.prefix_cons_iff.mp sub with rfl | ⟨q, rfl, inner⟩
        · exact List.nil_prefix
        · rw [frames_cons, List.length_append] at room
          exact (List.prefix_cons_inj r).mpr (covers q inner (by omega))
    · refine ⟨[], r :: rs, r.framed.take n, rfl, ?_, tornFrame_take first (by omega),
        fun p sub room => ?_⟩
      · rw [frames_cons, List.take_append_of_le_length (by omega), frames_nil, List.nil_append]
      · rcases List.prefix_cons_iff.mp sub with rfl | ⟨q, rfl, -⟩
        · exact List.nil_prefix
        · rw [frames_cons, List.length_append] at room
          omega

/-! ### Headers and footers -/

@[simp] theorem length_encodeSegmentHeader (id first : UInt64) :
    (encodeSegmentHeader id first).length = segmentHeaderSize := by
  simp [encodeSegmentHeader, m1WALMagic, ascii, segmentHeaderSize]

@[simp] theorem length_encodeSegmentFooter (last : UInt64) (records : Nat) :
    (encodeSegmentFooter last records).length = segmentFooterSize := by
  simp [encodeSegmentFooter, m1EndMagic, ascii, segmentFooterSize]

theorem header_fields (id first : UInt64) (rest : Bytes) :
    let data := encodeSegmentHeader id first ++ rest
    data.take 8 = m1WALMagic ∧ uint32BE (data.drop 8) = UInt32.ofNat m1WALVersion ∧
      uint32BE (data.drop 28) = checksumIEEE (data.take 28) ∧ uint64BE (data.drop 12) = id ∧
      uint64BE (data.drop 20) = first := by
  have magic : m1WALMagic.length = 8 := by decide
  have checked : (m1WALMagic ++ (putUint32BE (UInt32.ofNat m1WALVersion) ++
      (putUint64BE id ++ putUint64BE first))).length = 28 := by simp [magic]
  have at8 (t : Bytes) : (m1WALMagic ++ t).drop 8 = t := List.drop_left' magic
  have at12 (t : Bytes) : (m1WALMagic ++ (putUint32BE (UInt32.ofNat m1WALVersion) ++ t)).drop 12 =
      t := by
    rw [← List.append_assoc]
    exact List.drop_left' (by simp [magic])
  have at20 (t : Bytes) : (m1WALMagic ++ (putUint32BE (UInt32.ofNat m1WALVersion) ++
      (putUint64BE id ++ t))).drop 20 = t := by
    rw [← List.append_assoc, ← List.append_assoc]
    exact List.drop_left' (by simp [magic])
  simp only [encodeSegmentHeader]
  refine ⟨?_, ?_, ?_, ?_, ?_⟩
  · simp only [List.append_assoc]
    exact List.take_left' magic
  · simp only [List.append_assoc, at8, uint32BE_putUint32BE]
  · rw [List.append_assoc, List.drop_left' checked, List.take_left' checked, uint32BE_putUint32BE]
  · simp only [List.append_assoc, at12, uint64BE_putUint64BE]
  · simp only [List.append_assoc, at20, uint64BE_putUint64BE]

theorem footer_fields (last : UInt64) (records : Nat) :
    let footer := encodeSegmentFooter last records
    footer.take 8 = m1EndMagic ∧ uint64BE (footer.drop 8) = last ∧
      uint32BE (footer.drop 16) = UInt32.ofNat records ∧
      uint32BE (footer.drop 20) = checksumIEEE (footer.take 20) := by
  have magic : m1EndMagic.length = 8 := by decide
  have checked : (m1EndMagic ++ (putUint64BE last ++
      putUint32BE (UInt32.ofNat records))).length = 20 := by simp [magic]
  have at8 (t : Bytes) : (m1EndMagic ++ t).drop 8 = t := List.drop_left' magic
  have at16 (t : Bytes) : (m1EndMagic ++ (putUint64BE last ++ t)).drop 16 = t := by
    rw [← List.append_assoc]
    exact List.drop_left' (by simp [magic])
  simp only [encodeSegmentFooter]
  refine ⟨?_, ?_, ?_, ?_⟩
  · simp only [List.append_assoc]
    exact List.take_left' magic
  · simp only [List.append_assoc, at8, uint64BE_putUint64BE]
  · simp only [List.append_assoc, at16, uint32BE_putUint32BE]
  · rw [List.drop_left' checked, List.take_left' checked]
    simpa using uint32BE_putUint32BE (checksumIEEE (m1EndMagic ++ (putUint64BE last ++
      putUint32BE (UInt32.ofNat records)))) []

/-! ### Segments -/

/-- The records of a segment and the sequence it is named by. -/
structure Segment where
  first : UInt64
  records : List LogRecord

namespace Segment

/-- The segment while it is open. -/
def body (g : Segment) : Bytes := encodeSegmentHeader g.first g.first ++ frames g.records

def last (g : Segment) : UInt64 := (g.records.getLast?.map LogRecord.sequence).getD 0

/-- The segment when it is closed. -/
def whole (g : Segment) : Bytes := g.body ++ encodeSegmentFooter g.last g.records.length

def info (g : Segment) (closed : Bool) : SegmentMeta where
  id := g.first
  first := g.first
  last := g.last
  records := g.records.length
  closed := closed

theorem length_body (g : Segment) :
    g.body.length = segmentHeaderSize + (frames g.records).length := by
  simp [body]

theorem endsClosed_whole (g : Segment) : EndsClosed g.whole := by
  have footer := footer_fields g.last g.records.length
  constructor
  · simp [whole, length_body]
  · rw [whole, List.length_append, length_encodeSegmentFooter, Nat.add_sub_cancel, List.drop_left]
    exact footer.1

/-- No open segment stops like a closed one: there a record has its result. -/
theorem not_endsClosed_body (g : Segment) : ¬ EndsClosed g.body := by
  rintro ⟨room, magic⟩
  rcases List.eq_nil_or_concat g.records with empty | ⟨rs, r, eq⟩
  · rw [length_body, empty] at room
    exact absurd room (by decide)
  obtain ⟨before, result, text, long, small⟩ := r.marshalJSON_end
  obtain ⟨front, split⟩ : ∃ front, g.body =
      front ++ (result ++ putUint32BE (checksumIEEE r.marshalJSON)) := by
    refine ⟨encodeSegmentHeader g.first g.first ++ (frames rs ++
      (putUint32BE (UInt32.ofNat r.marshalJSON.length) ++ before)), ?_⟩
    rw [body, eq, List.concat_eq_append, frames_append, frames_cons, frames_nil, LogRecord.framed]
    nth_rewrite 2 [text]
    simp only [List.append_assoc, List.append_nil]
  have place : g.body.length - segmentFooterSize = front.length + (result.length - 20) := by
    rw [split]
    simp [segmentFooterSize]
    omega
  rw [place, split, ← List.drop_drop, List.drop_left,
    List.drop_append_of_le_length (by omega)] at magic
  have head := congrArg List.head? magic
  rw [List.head?_take, if_neg (by decide), List.head?_append_of_ne_nil _ (by simp; omega),
    List.head?_drop] at head
  exact small (List.mem_of_getElem? head)

end Segment

namespace Scan

/-- What the reader has behind closed segments. -/
def behind (s : Scan) (segs : List Segment) : Scan :=
  { s with
    out := s.out ++ segs.flatMap Segment.records
    metas := s.metas ++ segs.map (·.info true)
    expectedSeq := s.expectedSeq + UInt64.ofNat (segs.flatMap Segment.records).length }

/-- What the reader has behind an open segment. -/
def opened (s : Scan) (g : Segment) (cut : Option Nat) : Scan where
  out := s.out ++ g.records
  metas := s.metas ++ [g.info false]
  expectedSeq := s.expectedSeq + UInt64.ofNat g.records.length
  truncated := cut <|> s.truncated

end Scan

/-- The segments hold the records numbered from `n` on, one after the other. -/
def Chained : Nat → List Segment → Prop
  | _, [] => True
  | n, g :: gs =>
    g.first = UInt64.ofNat n ∧ Numbered n g.records ∧ Chained (n + g.records.length) gs

/-- The segment can be closed and read back. -/
structure Segment.Sound (programID : Bytes) (g : Segment) : Prop where
  nonempty : g.records ≠ []
  count : g.records.length < 2 ^ 32
  records : ∀ r ∈ g.records, r.Sound programID

section Reading

variable {after : UInt64} {programID : Bytes} {s : Scan} {g : Segment} {n : Nat} {tail : Bytes}

/-- An open segment with a torn frame behind its records. -/
theorem scanSegment_body (sound : ∀ r ∈ g.records, r.Sound programID)
    (numbered : Numbered n g.records) (expected : s.expectedSeq = UInt64.ofNat n)
    (torn : TornFrame tail) (unclosed : ¬ EndsClosed (g.body ++ tail)) :
    scanSegment after programID true s g.first (g.body ++ tail) =
      .ok (s.opened g (if tail = [] then none else some g.body.length)) := by
  obtain ⟨magic, version, check, id, first⟩ :=
    header_fields g.first g.first (frames g.records ++ tail)
  rw [← List.append_assoc, ← Segment.body] at magic version check id first
  have size : segmentHeaderSize ≤ (g.body ++ tail).length := by
    rw [List.length_append, g.length_body]
    omega
  have content : ((g.body ++ tail).take ((g.body ++ tail).length - 0)).drop segmentHeaderSize =
      frames g.records ++ tail := by
    rw [Nat.sub_zero, List.take_length, Segment.body, List.append_assoc,
      List.drop_left' (length_encodeSegmentHeader _ _)]
  have fuel : (frames g.records ++ tail).length + 1 =
      (frames g.records ++ tail).length - g.records.length + 1 + g.records.length := by
    have := length_le_frames g.records
    simp only [List.length_append]
    omega
  simp only [scanSegment, unclosed, decide_false, Bool.false_eq_true, if_false, content, magic,
    version, check, id, first, false_and, not_true_eq_false, ne_eq, not_false_eq_true, and_false,
    or_false, Nat.not_lt.mpr size]
  rw [fuel, scanRecords_frames sound numbered (by exact expected), scanRecords_torn torn]
  simp [Scan.opened, Segment.info, Segment.last, Cursor.behind, g.length_body]

theorem scanSegment_whole (sound : g.Sound programID) (numbered : Numbered n g.records)
    (expected : s.expectedSeq = UInt64.ofNat n) (final : Bool) :
    scanSegment after programID final s g.first g.whole = .ok (s.behind [g]) := by
  obtain ⟨magic, version, check, id, first⟩ := header_fields g.first g.first
    (frames g.records ++ encodeSegmentFooter g.last g.records.length)
  rw [← List.append_assoc, ← Segment.body, ← Segment.whole] at magic version check id first
  obtain ⟨-, last, count, footed⟩ := footer_fields g.last g.records.length
  have closed := g.endsClosed_whole
  have size : segmentHeaderSize ≤ g.whole.length := le_trans (by omega) closed.1
  have length : g.whole.length - segmentFooterSize = g.body.length := by
    rw [Segment.whole, List.length_append, length_encodeSegmentFooter, Nat.add_sub_cancel]
  have footer : g.whole.drop g.body.length = encodeSegmentFooter g.last g.records.length := by
    rw [Segment.whole, List.drop_left]
  have content : (g.whole.take g.body.length).drop segmentHeaderSize = frames g.records := by
    rw [Segment.whole, List.take_left, Segment.body,
      List.drop_left' (length_encodeSegmentHeader _ _)]
  have fuel : (frames g.records).length + 1 =
      (frames g.records).length - g.records.length + 1 + g.records.length := by
    have := length_le_frames g.records
    omega
  have small : (UInt32.ofNat g.records.length).toNat = g.records.length := by
    have := sound.count
    rw [UInt32.toNat_ofNat']
    omega
  have frames := @scanRecords_frames after programID (segmentName g.first) true
    { out := s.out, expectedSeq := s.expectedSeq, last := g.last, offset := segmentHeaderSize
      count := 0 } g.records [] n sound.records numbered expected
    ((frames g.records).length - g.records.length + 1)
  rw [List.append_nil] at frames
  simp only [scanSegment, closed, decide_true, if_true, length, footer, content, magic, version,
    check, id, first, last, count, footed, ne_eq, not_true_eq_false, and_false, false_and, or_false,
    if_false, Nat.not_lt.mpr size, small]
  rw [fuel, frames]
  have final : (g.records.getLast?.map LogRecord.sequence).getD g.last = g.last := by
    rw [Segment.last]
    cases g.records.getLast? <;> rfl
  simp [scanRecords, Scan.behind, Segment.info, Cursor.behind, final]

theorem Scan.behind_cons (s : Scan) (g : Segment) (segs : List Segment) :
    (s.behind [g]).behind segs = s.behind (g :: segs) := by
  simp [Scan.behind, UInt64.add_assoc]

theorem scanFiles_whole {segs : List Segment} (sound : ∀ g ∈ segs, g.Sound programID)
    (chained : Chained n segs) (expected : s.expectedSeq = UInt64.ofNat n)
    (files : List (UInt64 × Bytes)) :
    scanFiles after programID s (segs.map (fun g => (g.first, g.whole)) ++ files) =
      scanFiles after programID (s.behind segs) files := by
  induction segs generalizing s n with
  | nil => simp [Scan.behind]
  | cons g segs ih =>
    obtain ⟨-, numbered, later⟩ := chained
    have next := @ih (s.behind [g]) _ (fun h mem => sound h (List.mem_cons_of_mem _ mem)) later
      (by simp [Scan.behind, expected])
    rw [Scan.behind_cons] at next
    rw [List.map_cons, List.cons_append, scanFiles,
      scanSegment_whole (sound g List.mem_cons_self) numbered expected]
    exact next

end Reading

end OctetDB.Research
