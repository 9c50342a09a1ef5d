import OctetDB.Keyed.Storage
import OctetDB.Lib.Fold

/-!
# What recovery reads

Recovery undoes what the live handle wrote: a snapshot file is loaded as the state it was
written from, and a log is replayed as the records it was written with. Of a log that starts
before the snapshot, the records the snapshot covers are skipped and the rest are applied.
-/

namespace OctetDB

/-! ## Consecutive records -/

/-- The records have the sequences that follow `s`. -/
def Consecutive : UInt64 → List KeyedWALRecord → Prop
  | _, [] => True
  | s, r :: rs => r.sequence = s + 1 ∧ Consecutive r.sequence rs

/-- The sequence of the last record, or `s` if there is none. -/
def endSequence (s : UInt64) (rs : List KeyedWALRecord) : UInt64 :=
  rs.foldl (fun _ r => r.sequence) s

@[simp] theorem endSequence_nil (s : UInt64) : endSequence s [] = s := rfl
@[simp] theorem endSequence_cons (s : UInt64) (r : KeyedWALRecord) (rs : List KeyedWALRecord) :
    endSequence s (r :: rs) = endSequence r.sequence rs := rfl
@[simp] theorem endSequence_append (s : UInt64) (rs ts : List KeyedWALRecord) :
    endSequence s (rs ++ ts) = endSequence (endSequence s rs) ts := by
  simp [endSequence]

theorem consecutive_append (s : UInt64) (rs ts : List KeyedWALRecord) :
    Consecutive s (rs ++ ts) ↔ Consecutive s rs ∧ Consecutive (endSequence s rs) ts := by
  induction rs generalizing s with
  | nil => simp [Consecutive]
  | cons r rs ih => simp [Consecutive, ih, and_assoc]

variable {rs : List KeyedWALRecord} {s t : Replay} {r : KeyedWALRecord} {d : Directory}

/-- Consecutive records none of which has sequence zero do not wrap around. -/
theorem le_endSequence {s : UInt64} (chain : Consecutive s rs)
    (nonzero : ∀ r ∈ rs, r.sequence ≠ 0) : s ≤ endSequence s rs := by
  induction rs generalizing s with
  | nil => exact UInt64.le_refl s
  | cons r rs ih =>
    obtain ⟨next, chain⟩ := chain
    have later := ih chain fun q hq => nonzero q (by simp [hq])
    have here := nonzero r (by simp)
    rw [endSequence_cons]
    grind

/-! ## Replaying records -/

/-- A record that is replayed is either behind the state and applied, or covered by it. -/
theorem replayRecord_ok (h : replayRecord s r = .ok t) :
    r.sequence ≠ 0 ∧ t.lastSequence = r.sequence ∧
      ((r.sequence > s.db.sequence ∧ t.db = applyKeyed s.db r) ∨
        (r.sequence ≤ s.db.sequence ∧ t.db = s.db)) := by
  unfold replayRecord at h
  split at h
  · cases h
  rename_i contiguous
  have nonzero : r.sequence ≠ 0 := fun zero => contiguous (.inl zero)
  split at h
  · cases h
  split at h
  · rename_i behind
    split at h
    · cases h
    split at h
    · cases h
    split at h
    · cases h
    · cases h
      exact ⟨nonzero, rfl, .inl ⟨behind, rfl⟩⟩
  · rename_i covered
    cases h
    exact ⟨nonzero, rfl, .inr ⟨UInt64.not_lt.mp covered, rfl⟩⟩

theorem nonzero_of_replay (h : rs.foldlM replayRecord s = .ok t) : ∀ r ∈ rs, r.sequence ≠ 0 := by
  induction rs generalizing s with
  | nil => simp
  | cons r rs ih =>
    obtain ⟨u, first, later⟩ := foldlM_cons_ok.mp h
    rw [List.forall_mem_cons]
    exact ⟨(replayRecord_ok first).1, ih later⟩

theorem replay_covered {first : UInt64} (chain : Consecutive first rs)
    (covered : endSequence first rs = s.db.sequence) (h : rs.foldlM replayRecord s = .ok t) :
    t.db = s.db := by
  induction rs generalizing s first with
  | nil => rw [← foldlM_nil_ok.mp h]
  | cons r rs ih =>
    have nonzero := nonzero_of_replay h
    obtain ⟨u, step, later⟩ := foldlM_cons_ok.mp h
    obtain ⟨-, chain⟩ := chain
    rw [endSequence_cons] at covered
    have low := le_endSequence chain fun q hq => nonzero q (by simp [hq])
    rw [covered] at low
    obtain ⟨-, -, ⟨behind, -⟩ | ⟨-, same⟩⟩ := replayRecord_ok step
    · exact absurd low (UInt64.not_le.mpr behind)
    · rw [ih chain (by rw [covered, same]) later, same]

theorem replay_tail (chain : Consecutive s.db.sequence rs) (h : rs.foldlM replayRecord s = .ok t) :
    t.db = rs.foldl applyKeyed s.db := by
  induction rs generalizing s with
  | nil => rw [← foldlM_nil_ok.mp h]; rfl
  | cons r rs ih =>
    obtain ⟨u, step, later⟩ := foldlM_cons_ok.mp h
    obtain ⟨next, chain⟩ := chain
    obtain ⟨nonzero, -, ⟨-, applied⟩ | ⟨low, -⟩⟩ := replayRecord_ok step
    · rw [ih (by rw [applied]; exact chain) later, applied]
      rfl
    · grind

/-! ## Reading a log -/

def logOf (rs : List KeyedWALRecord) : Bytes := Frame.log (rs.map KeyedWALRecord.marshal)

@[simp] theorem logOf_nil : logOf [] = [] := rfl
@[simp] theorem logOf_append (rs ts : List KeyedWALRecord) :
    logOf (rs ++ ts) = logOf rs ++ logOf ts := by
  simp [logOf]
@[simp] theorem logOf_singleton (r : KeyedWALRecord) : logOf [r] = Frame.frame r.marshal := by
  simp [logOf]

/-- A record whose frame is read back as it was written. -/
structure Loggable (r : KeyedWALRecord) : Prop where
  valid : r.IdentifiersValid
  length_le : r.marshal.length ≤ maxKeyedFrameBytes

theorem fits_marshal (short : ∀ r ∈ rs, r.marshal.length ≤ maxKeyedFrameBytes) :
    ∀ p ∈ rs.map KeyedWALRecord.marshal, Frame.Fits 1 maxKeyedFrameBytes p := by
  intro p hp
  obtain ⟨r, hr, rfl⟩ := List.mem_map.mp hp
  exact ⟨Json.render_pos r.plain_toJson, short r hr⟩

/-- Replaying a log is replaying the records of its whole frames, as they are read back; a torn
tail is cut off. -/
theorem replayKeyedWAL_coerced (short : ∀ r ∈ rs, r.marshal.length ≤ maxKeyedFrameBytes)
    {tail : Bytes} (torn : Frame.Torn 1 maxKeyedFrameBytes tail) (db : KeyedDB) :
    replayKeyedWAL db (logOf rs ++ tail) =
      ((rs.map KeyedWALRecord.coerce).foldlM replayRecord { db := db }).map fun s =>
        (s.db, logOf rs) := by
  have fits := fits_marshal short
  have records : (rs.map KeyedWALRecord.marshal).foldlM replayFrame { db := db } =
      (rs.map KeyedWALRecord.coerce).foldlM replayRecord { db := db } := by
    rw [foldlM_map_congr (fun r _ s => by rw [replayFrame, r.unmarshal_marshal]),
      foldlM_map_congr fun _ _ _ => rfl]
  rcases torn with rfl | torn
  · have scan := Frame.scan_log fits (by decide)
    simp only [replayKeyedWAL, List.append_nil, logOf, scan, records]
    cases (rs.map KeyedWALRecord.coerce).foldlM replayRecord { db := db } <;> rfl
  · have scan := Frame.scan_log_append fits (by decide) torn
    simp only [replayKeyedWAL, logOf, scan, records, List.take_left']
    cases (rs.map KeyedWALRecord.coerce).foldlM replayRecord { db := db } <;> rfl

theorem replayKeyedWAL_torn (loggable : ∀ r ∈ rs, Loggable r) {tail : Bytes}
    (torn : Frame.Torn 1 maxKeyedFrameBytes tail) (db : KeyedDB) :
    replayKeyedWAL db (logOf rs ++ tail) =
      (rs.foldlM replayRecord { db := db }).map fun s => (s.db, logOf rs) := by
  rw [replayKeyedWAL_coerced (fun r hr => (loggable r hr).length_le) torn,
    List.map_congr_left fun r hr => KeyedWALRecord.coerce_of_valid (loggable r hr).valid,
    List.map_id']

theorem replayKeyedWAL_logOf (loggable : ∀ r ∈ rs, Loggable r) (db : KeyedDB) :
    replayKeyedWAL db (logOf rs) =
      (rs.foldlM replayRecord { db := db }).map fun s => (s.db, logOf rs) := by
  simpa using replayKeyedWAL_torn loggable (.inl rfl) db

/-- A log cut anywhere is the log of the first records, as many as are whole, and a torn tail. -/
theorem take_logOf (short : ∀ r ∈ rs, r.marshal.length ≤ maxKeyedFrameBytes) (n : Nat) :
    ∃ before after tail, rs = before ++ after ∧ (logOf rs).take n = logOf before ++ tail ∧
      Frame.Torn 1 maxKeyedFrameBytes tail ∧
      ∀ r rest, after = r :: rest → n < (logOf (before ++ [r])).length := by
  obtain ⟨_, _, tail, split, cut, torn, most⟩ := Frame.take_log (fits_marshal short) (by decide) n
  obtain ⟨before, after, rfl, rfl, rfl⟩ := List.map_eq_append_iff.mp split
  refine ⟨before, after, tail, rfl, cut, torn, ?_⟩
  rintro r rest rfl
  simpa [logOf] using most _ _ rfl

/-! ## Reading a snapshot -/

/-- The snapshot in a directory, empty if there is none. -/
def Directory.readSnapshot (d : Directory) : KeyedSnapshot :=
  match d.snapshot with
  | none => {}
  | some data =>
    ((Envelope.unmarshal data).bind fun envelope =>
      KeyedSnapshot.unmarshal envelope.payload).getD {}

/-- A state that a snapshot preserves: its window is consistent and holds decisions under
their own IDs, and all its identifiers are valid UTF-8. -/
structure Persistable (db : KeyedDB) : Prop where
  window : db.toWindow.Consistent db.options.dedupeHorizon
  retained : ∀ (id : Bytes) (r : KeyedWALRecord), db.dedupe[id]? = some r →
    r.commandID = id ∧ r.mutations = [] ∧ r.IdentifiersValid
  keys : ∀ key ∈ db.records, Utf8.valid key = true

def KeyedDB.blank (options : KeyedBounds) (format : KeyedFormat) : KeyedDB :=
  { options := options, format := format }

theorem Persistable.blank (options : KeyedBounds) (format : KeyedFormat) :
    Persistable (.blank options format) :=
  ⟨.empty _, by simp [KeyedDB.blank], by simp [KeyedDB.blank]⟩

theorem loadDedupe_ok {sequence : UInt64} (h : loadDedupe sequence s r = .ok t) :
    t.db = { s.db with toWindow := s.db.toWindow.addAll [(r.commandID, r)] } := by
  unfold loadDedupe at h
  split at h
  · cases h
  split at h
  · cases h
  split at h
  · cases h
  split at h
  · cases h
  · cases h; rfl

theorem foldlM_loadDedupe_ok {sequence : UInt64} (h : rs.foldlM (loadDedupe sequence) s = .ok t) :
    t.db = { s.db with toWindow := s.db.toWindow.addAll (rs.map fun r => (r.commandID, r)) } := by
  induction rs generalizing s with
  | nil => rw [← foldlM_nil_ok.mp h]; rfl
  | cons r rs ih =>
    obtain ⟨u, step, later⟩ := foldlM_cons_ok.mp h
    rw [ih later, loadDedupe_ok step]
    rfl

theorem loadSnapshot_ok {db t : KeyedDB} {snapshot : KeyedSnapshot}
    (h : loadSnapshot db snapshot = .ok t) :
    t = { db with
      records := snapshot.records
      sequence := snapshot.sequence
      toWindow := db.toWindow.addAll (snapshot.dedupe.map fun r => (r.commandID, r)) } := by
  unfold loadSnapshot at h
  split at h
  · cases h
  split at h
  · cases h
  simp only at h
  split at h
  · cases h
  · rename_i loaded
    split at h
    · cases h
    · cases h
      exact foldlM_loadDedupe_ok loaded

namespace Persistable

variable {db : KeyedDB} (p : Persistable db)
include p

theorem dedupe_eq {id : Bytes} (h : id ∈ db.dedupeIDs) :
    db.dedupe[id]? = some (db.dedupe.getD id {}) := by
  have present := (p.window.mem_iff id).mpr h
  rw [Std.ExtTreeMap.mem_iff_isSome_getElem?] at present
  obtain ⟨r, hr⟩ := Option.isSome_iff_exists.mp present
  rw [hr, Std.ExtTreeMap.getD_eq_getD_getElem?, hr]
  rfl

theorem snapshot_read : KeyedSnapshot.unmarshal db.toSnapshot.marshal = some db.toSnapshot := by
  have records : Json.coerceMap db.toSnapshot.records = db.toSnapshot.records :=
    (Json.coerceMap_eq_iff _).mpr p.keys
  have dedupe : db.toSnapshot.dedupe.map KeyedWALRecord.coerce = db.toSnapshot.dedupe := by
    conv_rhs => rw [← List.map_id db.toSnapshot.dedupe]
    apply List.map_congr_left
    intro r hr
    obtain ⟨id, mem, rfl⟩ := List.mem_map.mp hr
    exact KeyedWALRecord.coerce_of_valid (p.retained id _ (p.dedupe_eq mem)).2.2
  rw [KeyedSnapshot.unmarshal_marshal, records, dedupe]

theorem window_read : ({} : Window KeyedWALRecord).addAll
    (db.toSnapshot.dedupe.map fun r => (r.commandID, r)) = db.toWindow := by
  refine p.window.addAll_eq ?_ ?_
  · simp only [KeyedDB.toSnapshot, List.map_map]
    conv_rhs => rw [← List.map_id db.dedupeIDs]
    apply List.map_congr_left
    intro id mem
    exact (p.retained id _ (p.dedupe_eq mem)).1
  · intro e he
    simp only [KeyedDB.toSnapshot, List.map_map, List.mem_map] at he
    obtain ⟨id, mem, rfl⟩ := he
    simp only [Function.comp_apply]
    rw [(p.retained id _ (p.dedupe_eq mem)).1, p.dedupe_eq mem]

/-- A snapshot file is read as the snapshot it was written from. -/
theorem loadKeyedSnapshot_eq (blank : KeyedDB) :
    loadKeyedSnapshot blank (some db.snapshotFile) = loadSnapshot blank db.toSnapshot := by
  have envelope := Envelope.unmarshal_seal (show Utf8.valid keyedSnapshotMagic = true by decide)
    db.toSnapshot.plain_toJson (by decide)
  simp only [loadKeyedSnapshot, KeyedDB.snapshotFile, envelope]
  rw [if_neg (by simp), if_neg (by simp), ← KeyedSnapshot.marshal, p.snapshot_read]

theorem readSnapshot_eq (file : d.snapshot = some db.snapshotFile) :
    d.readSnapshot = db.toSnapshot := by
  have envelope := Envelope.unmarshal_seal (show Utf8.valid keyedSnapshotMagic = true by decide)
    db.toSnapshot.plain_toJson (by decide)
  simp only [Directory.readSnapshot, file, KeyedDB.snapshotFile, envelope, Option.bind_some]
  rw [← KeyedSnapshot.marshal, p.snapshot_read]
  rfl

/-- If a snapshot file is accepted, it restores the state it was written from. -/
theorem load_ok {t : KeyedDB}
    (h : loadKeyedSnapshot (.blank db.options db.format) (some db.snapshotFile) = .ok t) :
    t = { db with poisoned := false, closed := false } := by
  rw [p.loadKeyedSnapshot_eq] at h
  rw [loadSnapshot_ok h]
  have window := p.window_read
  simp only [KeyedDB.blank, window]
  rfl

end Persistable

/-! ## Opening -/

/-- What recovery does with a directory: the format marker, the snapshot and the log. -/
theorem openStorage_ok_iff {db t : KeyedDB} {e : Directory} :
    openStorage db d = .ok (t, e) ↔
      ∃ marked loaded wal, ensureKeyedFormat d db.format.contents = .ok marked ∧
        loadKeyedSnapshot db marked.snapshot = .ok loaded ∧
        replayKeyedWAL loaded (marked.wal.getD []) = .ok (t, wal) ∧
        e = { marked with wal := some wal } := by
  simp only [openStorage, bind_ok, Prod.exists, Except.ok.injEq, Prod.mk.injEq]
  constructor
  · rintro ⟨marked, format, loaded, load, u, wal, replay, rfl, rfl⟩
    exact ⟨marked, loaded, wal, format, load, replay, rfl⟩
  · rintro ⟨marked, loaded, wal, format, load, replay, rfl⟩
    exact ⟨marked, format, loaded, load, t, wal, replay, rfl, rfl⟩

theorem ensureKeyedFormat_files {marked : Directory} {expected : Bytes}
    (ok : ensureKeyedFormat d expected = .ok marked) :
    marked.snapshot = d.snapshot ∧ marked.wal = d.wal := by
  unfold ensureKeyedFormat at ok
  split at ok
  · split at ok
    · cases ok
    · cases ok; exact ⟨rfl, rfl⟩
  · split at ok
    · cases ok; exact ⟨rfl, rfl⟩
    · cases ok

section Recovered

variable {P : KeyedDB → Prop}
  (apply : ∀ db r, P db → validateKeyedRecord db r = .ok () →
    validateKeyedApply db r = .ok () → P (applyKeyed db r))

include apply

theorem replayRecord_keeps (holds : P s.db) (h : replayRecord s r = .ok t) : P t.db := by
  unfold replayRecord at h
  split at h
  · cases h
  split at h
  · cases h
  rename_i valid
  split at h
  · split at h
    · cases h
    split at h
    · cases h
    split at h
    · cases h
    · rename_i room
      cases h
      exact apply _ _ holds valid room
  · cases h
    exact holds

theorem foldlM_replayFrame_keeps {payloads : List Bytes} (holds : P s.db)
    (h : payloads.foldlM replayFrame s = .ok t) : P t.db := by
  induction payloads generalizing s with
  | nil =>
    obtain rfl := foldlM_nil_ok.mp h
    exact holds
  | cons payload payloads ih =>
    obtain ⟨u, first, later⟩ := foldlM_cons_ok.mp h
    refine ih ?_ later
    unfold replayFrame at first
    split at first
    · cases first
    · exact replayRecord_keeps apply holds first

/-- A property that loaded snapshots have and that decisions which pass the checks of the replay
keep holds of every store that recovery accepts. -/
theorem openStorage_induction {db t : KeyedDB} {e : Directory} (h : openStorage db d = .ok (t, e))
    (start : P db) (load : ∀ snapshot u, loadSnapshot db snapshot = .ok u → P u) : P t := by
  obtain ⟨marked, loaded, wal, -, snapshot, replay, -⟩ := openStorage_ok_iff.mp h
  have holds : P loaded := by
    unfold loadKeyedSnapshot at snapshot
    split at snapshot
    · cases snapshot
      exact start
    · split at snapshot
      · cases snapshot
      split at snapshot
      · cases snapshot
      split at snapshot
      · cases snapshot
      split at snapshot
      · cases snapshot
      · exact load _ _ snapshot
  unfold replayKeyedWAL at replay
  simp only at replay
  split at replay
  · cases replay
  rename_i s loop
  have done := foldlM_replayFrame_keeps apply holds loop
  split at replay <;> cases replay <;> exact done

end Recovered

end OctetDB
