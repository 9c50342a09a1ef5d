import OctetDB.Catalog.RoundTrip

/-!
# What the files of a database tell

Keys of records are valid UTF-8 here; command IDs and rejection codes need not be. Recovery then
reads the records of an earlier state of the database: the snapshot and the decisions at the
front of the log behind it. All such states belong to one topology.
-/

namespace OctetDB

/-! ## Logs with readable keys -/

/-- A record whose frame is read back with the same writes. -/
structure Legible (r : KeyedWALRecord) : Prop where
  keys : ∀ m ∈ r.mutations, Utf8.valid m.key = true
  length_le : r.marshal.length ≤ maxKeyedFrameBytes

def applyRecord (records : ByteMap Bytes) (r : KeyedWALRecord) : ByteMap Bytes :=
  if r.applied then r.mutations.foldl applyMutation records else records

theorem records_applyKeyed (db : KeyedDB) (r : KeyedWALRecord) :
    (applyKeyed db r).records = applyRecord db.records r := rfl

theorem records_foldl_applyKeyed (db : KeyedDB) (rs : List KeyedWALRecord) :
    (rs.foldl applyKeyed db).records = rs.foldl applyRecord db.records := by
  induction rs generalizing db with
  | nil => rfl
  | cons r rs ih => rw [List.foldl_cons, ih, records_applyKeyed, List.foldl_cons]

theorem Legible.applyRecord_coerce {r : KeyedWALRecord} (h : Legible r) (records : ByteMap Bytes) :
    applyRecord records r.coerce = applyRecord records r := by
  have same : r.mutations.map KeyedMutation.coerce = r.mutations := by
    conv_rhs => rw [← List.map_id r.mutations]
    refine List.map_congr_left fun m mem => ?_
    simp [KeyedMutation.coerce, Utf8.coerce_of_valid (h.keys m mem)]
  simp only [applyRecord, KeyedWALRecord.coerce, same]

theorem foldl_applyRecord_coerce {rs : List KeyedWALRecord} (legible : ∀ r ∈ rs, Legible r)
    (records : ByteMap Bytes) :
    (rs.map KeyedWALRecord.coerce).foldl applyRecord records = rs.foldl applyRecord records := by
  induction rs generalizing records with
  | nil => rfl
  | cons r rs ih =>
    obtain ⟨first, later⟩ := List.forall_mem_cons.mp legible
    rw [List.map_cons, List.foldl_cons, List.foldl_cons, first.applyRecord_coerce, ih later]

theorem consecutive_coerce {s : UInt64} {rs : List KeyedWALRecord} :
    Consecutive s (rs.map KeyedWALRecord.coerce) ↔ Consecutive s rs := by
  induction rs generalizing s with
  | nil => exact Iff.rfl
  | cons r rs ih => exact and_congr_right fun _ => ih

theorem endSequence_coerce (s : UInt64) (rs : List KeyedWALRecord) :
    endSequence s (rs.map KeyedWALRecord.coerce) = endSequence s rs := by
  induction rs generalizing s with
  | nil => rfl
  | cons r rs ih => exact ih r.sequence

/-- A part of a log that has the frames of `covered` is the log of these, of some of the records
behind them, and a torn tail. -/
theorem cut_logOf {covered tail : List KeyedWALRecord} (legible : ∀ r ∈ covered ++ tail, Legible r)
    {wal : Bytes} (whole : logOf covered <+: wal) (part : wal <+: logOf (covered ++ tail)) :
    ∃ ts torn, ts <+: tail ∧ wal = logOf (covered ++ ts) ++ torn ∧
      Frame.Torn 1 maxKeyedFrameBytes torn := by
  obtain ⟨rest, eq⟩ := whole
  rw [logOf_append, ← eq, List.prefix_append_right_inj] at part
  obtain ⟨ts, after, torn, rfl, cut, isTorn, -⟩ := take_logOf
    (fun r mem => (legible r (List.mem_append_right covered mem)).length_le) rest.length
  refine ⟨ts, torn, List.prefix_append ts after, ?_, isTorn⟩
  rw [← eq, logOf_append, List.append_assoc, List.prefix_iff_eq_take.mp part]
  exact congrArg _ cut

/-! ## The files of a store -/

/-- The snapshot file is that of a state with the given records and sequence. -/
def SnapshotOf (file : Option Bytes) (base : ByteMap Bytes) (sequence : UInt64) : Prop :=
  (file = none ∧ base = ∅ ∧ sequence = 0) ∨
    ∃ db : KeyedDB, file = some db.snapshotFile ∧ db.records = base ∧ db.sequence = sequence

/-- A snapshot, a log of records that it covers and of others behind it, of which the end may be
missing, and the records of every state in between belong to the topology. -/
structure Files (c : CatalogState) (file : Option Bytes) (wal : Bytes) (base : ByteMap Bytes)
    (sequence : UInt64) (covered tail : List KeyedWALRecord) : Prop where
  snapshot : SnapshotOf file base sequence
  keys : ∀ key ∈ base, Utf8.valid key = true
  chain : ∃ first, Consecutive first covered ∧ endSequence first covered = sequence
  next : Consecutive sequence tail
  legible : ∀ r ∈ covered ++ tail, Legible r
  whole : logOf covered <+: wal
  part : wal <+: logOf (covered ++ tail)
  owned : ∀ ts, ts <+: tail → c.Owns (ts.foldl applyRecord base)

section Read

variable {c : CatalogState} {file : Option Bytes} {wal : Bytes} {base : ByteMap Bytes}
  {sequence : UInt64} {covered tail : List KeyedWALRecord}

theorem SnapshotOf.load (h : SnapshotOf file base sequence)
    (keys : ∀ key ∈ base, Utf8.valid key = true) {options : KeyedBounds} {format : KeyedFormat}
    {loaded : KeyedDB} (ok : loadKeyedSnapshot (.blank options format) file = .ok loaded) :
    loaded.records = base ∧ loaded.sequence = sequence := by
  obtain ⟨rfl, rfl, rfl⟩ | ⟨db, rfl, rfl, rfl⟩ := h
  · cases ok
    exact ⟨rfl, rfl⟩
  · have envelope := Envelope.unmarshal_seal (show Utf8.valid keyedSnapshotMagic = true by decide)
      db.toSnapshot.plain_toJson (by decide)
    simp only [loadKeyedSnapshot, KeyedDB.snapshotFile, envelope] at ok
    rw [if_neg (by simp), if_neg (by simp), ← KeyedSnapshot.marshal,
      KeyedSnapshot.unmarshal_marshal] at ok
    rw [loadSnapshot_ok ok]
    exact ⟨(Json.coerceMap_eq_iff _).mpr keys, rfl⟩

/-- What recovery reads: the state of the snapshot and of some records behind it. -/
theorem Files.read (h : Files c file wal base sequence covered tail) {options : KeyedOptions}
    {format : KeyedFormat} {d e : Directory} {keyed : KeyedDB} (snapshot : d.snapshot = file)
    (log : d.wal.getD [] = wal) (opened : openKeyed options format d = .ok (keyed, e)) :
    ∃ ts, ts <+: tail ∧ keyed.records = ts.foldl applyRecord base ∧
      keyed.sequence = endSequence sequence ts ∧ e.wal = some (logOf (covered ++ ts)) ∧
      e.snapshot = file := by
  obtain ⟨bounds, normal, stored⟩ := bind_ok.mp opened
  obtain ⟨marked, loaded, rest, ensured, load, replay, rfl⟩ := openStorage_ok_iff.mp stored
  obtain ⟨sameSnapshot, sameLog⟩ := ensureKeyedFormat_files ensured
  rw [sameSnapshot, snapshot] at load
  obtain ⟨records, start⟩ := h.snapshot.load h.keys load
  obtain ⟨ts, torn, within, cut, isTorn⟩ := cut_logOf h.legible h.whole h.part
  have legible : ∀ r ∈ covered ++ ts, Legible r := fun r mem => by
    rcases List.mem_append.mp mem with mem | mem
    · exact h.legible r (List.mem_append_left _ mem)
    · exact h.legible r (List.mem_append_right _ (within.subset mem))
  rw [sameLog, log, cut,
    replayKeyedWAL_coerced (fun r mem => (legible r mem).length_le) isTorn] at replay
  cases run : ((covered ++ ts).map KeyedWALRecord.coerce).foldlM replayRecord { db := loaded } with
  | error err =>
    rw [run] at replay
    cases replay
  | ok t =>
    rw [run] at replay
    obtain ⟨rfl, rfl⟩ := Prod.mk.inj (Except.ok.inj replay)
    rw [List.map_append] at run
    obtain ⟨u, skip, apply⟩ := foldlM_append_ok.mp run
    obtain ⟨first, chain, frontier⟩ := h.chain
    have skipped : u.db = loaded := replay_covered (consecutive_coerce.mpr chain)
      (by rw [endSequence_coerce, frontier, ← start]) skip
    have next : Consecutive sequence ts := by
      obtain ⟨after, rfl⟩ := within
      exact ((consecutive_append _ _ _).mp h.next).1
    have state := replay_tail (by rw [skipped, start]; exact consecutive_coerce.mpr next) apply
    refine ⟨ts, within, ?_, ?_, rfl, by rw [← snapshot, ← sameSnapshot]⟩
    · simp only [state, skipped, records_foldl_applyKeyed, records]
      exact foldl_applyRecord_coerce (fun r mem => legible r (List.mem_append_right _ mem)) base
    · simp only [state, skipped, sequence_foldl_applyKeyed, start, endSequence_coerce]

theorem Files.cut (h : Files c file wal base sequence covered tail) {wal' : Bytes}
    (whole : logOf covered <+: wal') (part : wal' <+: wal) :
    Files c file wal' base sequence covered tail :=
  { h with whole := whole, part := part.trans h.part }

/-- Files whose log ends with the records behind the snapshot. -/
theorem Files.exact (h : Files c file wal base sequence covered tail) {ts : List KeyedWALRecord}
    (within : ts <+: tail) :
    Files c file (logOf (covered ++ ts)) base sequence covered ts := by
  refine { h with
    next := ?_
    legible := fun r mem => ?_
    whole := by simp
    part := List.prefix_refl _
    owned := fun us part => h.owned us (part.trans within) }
  · obtain ⟨after, rfl⟩ := within
    exact ((consecutive_append _ _ _).mp h.next).1
  · rcases List.mem_append.mp mem with mem | mem
    · exact h.legible r (List.mem_append_left _ mem)
    · exact h.legible r (List.mem_append_right _ (within.subset mem))

/-- A topology that owns more owns the states of the files. -/
theorem Files.mono (h : Files c file wal base sequence covered tail) {c' : CatalogState}
    (more : ∀ records, c.Owns records → c'.Owns records) :
    Files c' file wal base sequence covered tail :=
  { h with owned := fun ts part => more _ (h.owned ts part) }

theorem valid_foldl_applyRecord {rs : List KeyedWALRecord} (legible : ∀ r ∈ rs, Legible r)
    {records : ByteMap Bytes} (keys : ∀ key ∈ records, Utf8.valid key = true) :
    ∀ key ∈ rs.foldl applyRecord records, Utf8.valid key = true := by
  induction rs generalizing records with
  | nil => exact keys
  | cons r rs ih =>
    obtain ⟨first, later⟩ := List.forall_mem_cons.mp legible
    refine ih later fun key mem => ?_
    unfold applyRecord at mem
    split at mem
    · rcases mem_foldl_applyMutation mem with old | ⟨m, listed, rfl⟩
      · exact keys key old
      · exact first.keys m listed
    · exact keys key mem

end Read

/-! ## Snapshots -/

/-- The files behind a snapshot of the state at the end of the log: the log is covered, and may
be gone. -/
theorem Files.snapshotted {c : CatalogState} {file : Option Bytes} {wal : Bytes}
    {base : ByteMap Bytes} {sequence : UInt64} {covered tail : List KeyedWALRecord} {db : KeyedDB}
    (h : Files c file wal base sequence covered tail) (log : wal = logOf (covered ++ tail))
    (records : db.records = tail.foldl applyRecord base)
    (last : db.sequence = endSequence sequence tail) :
    Files c (some db.snapshotFile) wal db.records db.sequence (covered ++ tail) [] ∧
      Files c (some db.snapshotFile) [] db.records db.sequence [] [] := by
  have keys : ∀ key ∈ db.records, Utf8.valid key = true := by
    rw [records]
    exact valid_foldl_applyRecord (fun r mem => h.legible r (List.mem_append_right _ mem)) h.keys
  have owned : ∀ ts, ts <+: [] → c.Owns (ts.foldl applyRecord db.records) := by
    intro ts part
    obtain rfl := List.prefix_nil.mp part
    rw [records]
    exact h.owned tail (List.prefix_refl _)
  obtain ⟨first, chain, frontier⟩ := h.chain
  refine ⟨⟨.inr ⟨db, rfl, rfl, rfl⟩, keys, ⟨first, ?_, ?_⟩, trivial,
      by simpa using h.legible, ?_, ?_, owned⟩,
    ⟨.inr ⟨db, rfl, rfl, rfl⟩, keys, ⟨db.sequence, trivial, rfl⟩, trivial, by simp, by simp,
      by simp, owned⟩⟩
  · rw [consecutive_append, frontier]
    exact ⟨chain, h.next⟩
  · rw [endSequence_append, frontier, last]
  · rw [log]
  · rw [log, List.append_nil]

end OctetDB
