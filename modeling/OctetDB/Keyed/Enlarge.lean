import OctetDB.Keyed.ExactlyOnce

/-!
# Reopening with larger bounds

Recovery checks every bound again. Larger bounds for records, values and transactions accept
whatever smaller ones accept. A larger dedupe horizon does not: it retains IDs during the
replay that had expired when the log was written, and an ID that was decided again counts as
a repeated one.
-/

namespace OctetDB

/-- Every bound that the first options select is at most the one the others select. -/
structure KeyedOptions.AtMost (o p : KeyedOptions) : Prop where
  maxRecords : orDefault o.maxRecords 100000 ≤ orDefault p.maxRecords 100000
  dedupeHorizon : orDefault o.dedupeHorizon 100000 ≤ orDefault p.dedupeHorizon 100000
  maxValueBytes : orDefault o.maxValueBytes (2 ^ 20) ≤ orDefault p.maxValueBytes (2 ^ 20)
  maxTransactionBytes : orDefault o.maxTransactionBytes (4 * 2 ^ 20) ≤
    orDefault p.maxTransactionBytes (4 * 2 ^ 20)

structure KeyedBounds.AtMost (b c : KeyedBounds) : Prop where
  maxRecords : b.maxRecords ≤ c.maxRecords
  dedupeHorizon : b.dedupeHorizon ≤ c.dedupeHorizon
  maxValueBytes : b.maxValueBytes ≤ c.maxValueBytes
  maxTransactionBytes : b.maxTransactionBytes ≤ c.maxTransactionBytes

/-! ## The decisions that recovery reads -/

/-- The records of the whole frames of the log. -/
def Directory.readLog (d : Directory) : List KeyedWALRecord :=
  (Frame.scan 1 maxKeyedFrameBytes (d.wal.getD [])).payloads.filterMap KeyedWALRecord.unmarshal

/-- The decisions that the snapshot retains and those of the log behind it. -/
def Directory.decisions (d : Directory) : List KeyedWALRecord :=
  d.readSnapshot.dedupe ++ d.readLog.filter (d.readSnapshot.sequence < ·.sequence)

/-! ## Checks under larger bounds -/

section Checks

variable {b c : KeyedBounds} (larger : b.AtMost c) {db e : KeyedDB} {r : KeyedWALRecord}

include larger

theorem AcceptsRecord.enlarge (h : AcceptsRecord db r) (options : db.options = b)
    (options' : e.options = c) (format : e.format = db.format) : AcceptsRecord e r := by
  have keys : e.maxStoredKeyBytes = db.maxStoredKeyBytes := by
    simp only [KeyedDB.maxStoredKeyBytes, format]
  have values : db.options.maxValueBytes ≤ e.options.maxValueBytes := by
    rw [options, options']
    exact larger.maxValueBytes
  have total : db.options.maxTransactionBytes ≤ e.options.maxTransactionBytes := by
    rw [options, options']
    exact larger.maxTransactionBytes
  exact { h with
    result_small := h.result_small.trans values
    writes := fun m mem => { h.writes m mem with
      short := keys ▸ (h.writes m mem).short
      small := (h.writes m mem).small.trans values }
    total := h.total.trans total }

theorem validateKeyedApply_enlarge (h : validateKeyedApply db r = .ok ()) (options : db.options = b)
    (options' : e.options = c) (records : e.records = db.records) :
    validateKeyedApply e r = .ok () := by
  have room : (b.maxRecords : Int) ≤ c.maxRecords := by exact_mod_cast larger.maxRecords
  cases applied : r.applied with
  | false => rw [validateKeyedApply, if_pos applied]
  | true =>
    have count := validateKeyedApply_ok h applied
    rw [options] at count
    rw [validateKeyedApply, if_neg (by simp [applied]), records, options', if_neg (by omega)]

end Checks

/-! ## Two replays of one log -/

/-- Two replays of one log under different bounds: they differ in what they retain at most. -/
structure Twin (b c : KeyedBounds) (s t : Replay) : Prop where
  options : s.db.options = b
  options' : t.db.options = c
  format : t.db.format = s.db.format
  records : t.db.records = s.db.records
  sequence : t.db.sequence = s.db.sequence
  last : t.lastSequence = s.lastSequence

section Replays

variable {b c : KeyedBounds} (larger : b.AtMost c) {base : UInt64} {s s' t : Replay}
  {r : KeyedWALRecord} {seen : List (Bytes × KeyedWALRecord)}

include larger

/-- What the replay under smaller bounds accepts, the other one accepts unless the ID of a
decision behind the snapshot is retained there. -/
theorem Twin.step (twin : Twin b c s s') (since : s.Since base) (ok : replayRecord s r = .ok t) :
    (r.sequence ≤ base ∧ t.Since base ∧
      ∃ t', replayRecord s' r = .ok t' ∧ t'.db = s'.db ∧ Twin b c t t') ∨
    (base < r.sequence ∧ t.Since base ∧
      (r.commandID ∉ s'.db.dedupe →
        Twin b c t ⟨applyKeyed s'.db r, r.sequence⟩) ∧
      ∀ t', replayRecord s' r = .ok t' ↔
        r.commandID ∉ s'.db.dedupe ∧ t' = ⟨applyKeyed s'.db r, r.sequence⟩) := by
  obtain ⟨nonzero, contiguous, accepts, last⟩ := replayRecord_ok_iff.mp ok
  have contiguous' : s'.lastSequence = 0 ∨ r.sequence = s'.lastSequence + 1 :=
    twin.last ▸ contiguous
  have accepts' : AcceptsRecord s'.db r :=
    accepts.enlarge larger twin.options twin.options' twin.format
  rcases last with ⟨covered, rfl⟩ | ⟨behind, next, -, room, rfl⟩
  · have start := since.covered ok covered
    refine .inl ⟨start ▸ covered, .inl start, ⟨s'.db, r.sequence⟩, ?_, rfl, ?_⟩
    · exact replayRecord_ok_iff.mpr
        ⟨nonzero, contiguous', accepts', .inl ⟨twin.sequence ▸ covered, rfl⟩⟩
    · exact ⟨twin.options, twin.options', twin.format, twin.records, twin.sequence, rfl⟩
  · have above := UInt64.lt_of_le_of_lt since.le behind
    refine .inr ⟨above, .inr ⟨rfl, above⟩, fun _ => ?_, fun t' => ?_⟩
    · refine ⟨twin.options, twin.options', twin.format, ?_, rfl, rfl⟩
      simp only [applyKeyed, twin.records]
    · rw [replayRecord_ok_iff, twin.sequence]
      have room' := validateKeyedApply_enlarge larger room twin.options twin.options' twin.records
      constructor
      · rintro ⟨-, -, -, ⟨covered, -⟩ | ⟨-, -, fresh, -, rfl⟩⟩
        · exact absurd behind (UInt64.not_lt.mpr covered)
        · exact ⟨fresh, rfl⟩
      · rintro ⟨fresh, rfl⟩
        exact ⟨nonzero, contiguous', accepts', .inr ⟨behind, next, fresh, room', rfl⟩⟩

/-- A whole log: the replay under larger bounds succeeds exactly if no ID of the decisions
behind the snapshot recurs within the larger horizon, and then it agrees with the other. -/
theorem Twin.run {rs : List KeyedWALRecord} (twin : Twin b c s s') (since : s.Since base)
    (saw : Window.Saw c.dedupeHorizon s'.db.toWindow seen)
    (spread : Window.Spread c.dedupeHorizon (seen.map (·.1)))
    (ok : rs.foldlM replayRecord s = .ok t) :
    (∀ t', rs.foldlM replayRecord s' = .ok t' → Twin b c t t') ∧
      ((∃ t', rs.foldlM replayRecord s' = .ok t') ↔ Window.Spread c.dedupeHorizon
        (seen.map (·.1) ++ (rs.filter (base < ·.sequence)).map (·.commandID))) := by
  induction rs generalizing s s' seen with
  | nil =>
    obtain rfl := foldlM_nil_ok.mp ok
    refine ⟨fun t' same => foldlM_nil_ok.mp same ▸ twin, fun _ => by simpa using spread,
      fun _ => ⟨s', rfl⟩⟩
  | cons r rs ih =>
    obtain ⟨u, first, later⟩ := foldlM_cons_ok.mp ok
    rcases twin.step larger since first with
      ⟨low, since, u', step, same, twin⟩ | ⟨high, since, next, step⟩
    · have tail (t' : Replay) :
          (r :: rs).foldlM replayRecord s' = .ok t' ↔ rs.foldlM replayRecord u' = .ok t' := by
        rw [foldlM_cons_ok]
        exact ⟨fun ⟨v, here, rest⟩ => Except.ok.inj (step.symm.trans here) ▸ rest,
          fun rest => ⟨u', step, rest⟩⟩
      simp only [tail]
      rw [List.filter_cons_of_neg (by simpa using low)]
      exact ih twin since (same ▸ saw) spread later
    · have tail (t' : Replay) : (r :: rs).foldlM replayRecord s' = .ok t' ↔
          r.commandID ∉ s'.db.dedupe ∧
            rs.foldlM replayRecord ⟨applyKeyed s'.db r, r.sequence⟩ = .ok t' := by
        rw [foldlM_cons_ok]
        exact ⟨fun ⟨v, here, rest⟩ => ⟨((step v).mp here).1, ((step v).mp here).2 ▸ rest⟩,
          fun ⟨fresh, rest⟩ => ⟨_, (step _).mpr ⟨fresh, rfl⟩, rest⟩⟩
      simp only [tail]
      rw [List.filter_cons_of_pos (by simpa using high), List.map_cons, List.append_cons]
      by_cases retained : r.commandID ∈ s'.db.dedupe
      · refine ⟨fun t' h => absurd retained h.1, iff_of_false ?_ fun spread => ?_⟩
        · exact fun ⟨t', fresh, _⟩ => fresh retained
        · exact (Window.spread_concat.mp spread.of_append).2 ((saw.mem_iff_rtake _).mp retained)
      · have sawNext := saw.retain (v := r.retained) retained c.horizon_pos
        rw [← twin.options'] at sawNext
        have spreadNext := Window.spread_concat.mpr
          ⟨spread, fun recent => retained ((saw.mem_iff_rtake _).mpr recent)⟩
        have run := @ih u ⟨applyKeyed s'.db r, r.sequence⟩ (seen ++ [r.entry]) (next retained) since
          (twin.options' ▸ sawNext) (by simpa [KeyedWALRecord.entry] using spreadNext) later
        rw [List.map_append] at run
        simp only [retained, not_false_iff, true_and]
        exact run

end Replays

/-- The frames of a log that one replay accepts are replayed as their records. -/
theorem foldlM_replayFrame {s t : Replay} {payloads : List Bytes}
    (ok : payloads.foldlM replayFrame s = .ok t) (u : Replay) :
    payloads.foldlM replayFrame u =
      (payloads.filterMap KeyedWALRecord.unmarshal).foldlM replayRecord u := by
  induction payloads generalizing s u with
  | nil => rfl
  | cons payload payloads ih =>
    obtain ⟨v, first, later⟩ := foldlM_cons_ok.mp ok
    unfold replayFrame at first
    split at first
    · cases first
    · rename_i r read
      rw [List.filterMap_cons_some read, List.foldlM_cons, List.foldlM_cons, replayFrame, read]
      exact bind_congr fun w => ih later w

/-- The replay of a log, without what it does to a torn tail. -/
theorem replayKeyedWAL_ok_iff {db t : KeyedDB} {wal w : Bytes} :
    replayKeyedWAL db wal = .ok (t, w) ↔
      ∃ s, (Frame.scan 1 maxKeyedFrameBytes wal).payloads.foldlM replayFrame { db := db } = .ok s ∧
        t = s.db ∧ (((Frame.scan 1 maxKeyedFrameBytes wal).stop = .done ∧ w = wal) ∨
          ((Frame.scan 1 maxKeyedFrameBytes wal).stop = .torn ∧
            w = wal.take (Frame.log (Frame.scan 1 maxKeyedFrameBytes wal).payloads).length)) := by
  unfold replayKeyedWAL
  generalize Frame.scan 1 maxKeyedFrameBytes wal = scan
  simp only
  cases scan.payloads.foldlM replayFrame { db := db } with
  | error err => simp
  | ok s =>
    cases scan.stop <;> simp [eq_comm]

/-! ## The snapshot -/

def KeyedDB.enlarge (db : KeyedDB) (c : KeyedBounds) : KeyedDB := { db with options := c }

variable {format : KeyedFormat}

section Snapshot

variable {b c : KeyedBounds} (larger : b.AtMost c)

include larger

/-- The retained decisions of a snapshot load under larger bounds, and they are apart. -/
theorem foldlM_loadDedupe_enlarge {sequence : UInt64} {s t : Replay} {rs : List KeyedWALRecord}
    {seen : List (Bytes × KeyedWALRecord)} (options : s.db.options = b)
    (saw : Window.Saw c.dedupeHorizon s.db.toWindow seen)
    (spread : Window.Spread c.dedupeHorizon (seen.map (·.1)))
    (room : seen.length + rs.length ≤ c.dedupeHorizon)
    (ok : rs.foldlM (loadDedupe sequence) s = .ok t) :
    rs.foldlM (loadDedupe sequence) ⟨s.db.enlarge c, s.lastSequence⟩ =
        .ok ⟨t.db.enlarge c, t.lastSequence⟩ ∧
      Window.Saw c.dedupeHorizon t.db.toWindow (seen ++ rs.map fun r => (r.commandID, r)) ∧
      Window.Spread c.dedupeHorizon (seen.map (·.1) ++ rs.map (·.commandID)) := by
  induction rs generalizing s seen with
  | nil =>
    obtain rfl := foldlM_nil_ok.mp ok
    exact ⟨rfl, by simpa using saw, by simpa using spread⟩
  | cons r rs ih =>
    obtain ⟨u, first, later⟩ := foldlM_cons_ok.mp ok
    obtain ⟨nonzero, low, accepts, order, fresh, rfl⟩ := loadDedupe_ok_iff.mp first
    have step := (@loadDedupe_ok_iff sequence ⟨s.db.enlarge c, s.lastSequence⟩ _ r).mpr
      ⟨nonzero, low, accepts.enlarge larger options rfl rfl, order, fresh, rfl⟩
    have spreadNext := Window.spread_concat.mpr
      ⟨spread, fun recent => fresh ((saw.mem_iff_rtake _).mpr recent)⟩
    have sawNext := saw.retain (v := r) fresh c.horizon_pos
    rw [List.length_cons] at room
    rw [Window.retain_of_room (by rw [saw.length_ids]; omega)] at sawNext
    obtain ⟨run, saw, spread⟩ := @ih ⟨{ s.db with
        dedupe := s.db.dedupe.insert r.commandID r
        dedupeIDs := s.db.dedupeIDs ++ [r.commandID] }, r.sequence⟩ (seen ++ [(r.commandID, r)])
      options sawNext (by simpa using spreadNext) (by simp; omega) later
    exact ⟨foldlM_cons_ok.mpr ⟨_, step, run⟩, by simpa using saw, by simpa using spread⟩

theorem forM_validateSnapshotRecord_enlarge {entries : List (Bytes × Bytes)}
    (ok : forM entries (validateSnapshotRecord (.blank b format)) = .ok ()) :
    forM entries (validateSnapshotRecord (.blank c format)) = .ok () := by
  rw [forM_ok] at ok ⊢
  intro entry mem
  have here := ok entry mem
  have values := larger.maxValueBytes
  unfold validateSnapshotRecord at here ⊢
  split at here
  · cases here
  rename_i small
  split at here
  · cases here
  rename_i proper
  have small' : ¬ entry.2.length > (KeyedDB.blank c format).options.maxValueBytes := by
    simp only [KeyedDB.blank] at small ⊢
    omega
  rw [if_neg small']
  exact if_neg proper

theorem loadSnapshot_enlarge {snapshot : KeyedSnapshot} {t : KeyedDB}
    (ok : loadSnapshot (.blank b format) snapshot = .ok t) :
    loadSnapshot (.blank c format) snapshot = .ok (t.enlarge c) ∧
      Window.Saw c.dedupeHorizon t.toWindow (snapshot.dedupe.map fun r => (r.commandID, r)) ∧
      Window.Spread c.dedupeHorizon (snapshot.dedupe.map (·.commandID)) := by
  have records := larger.maxRecords
  have horizon := larger.dedupeHorizon
  unfold loadSnapshot at ok ⊢
  split at ok
  · cases ok
  rename_i bounds
  split at ok
  · cases ok
  rename_i entries
  simp only at ok
  split at ok
  · cases ok
  rename_i s loaded
  split at ok
  · cases ok
  rename_i frontier
  simp only [KeyedDB.blank, not_or, not_lt, gt_iff_lt] at bounds
  obtain ⟨run, saw, spread⟩ := @foldlM_loadDedupe_enlarge b c larger _ _ _ _ [] rfl (.empty _)
    (Window.spread_nil _) (by simp; omega) loaded
  obtain rfl := Except.ok.inj ok
  refine ⟨?_, saw, spread⟩
  rw [if_neg (by simp only [KeyedDB.blank]; omega),
    forM_validateSnapshotRecord_enlarge larger entries]
  simp only [KeyedDB.enlarge, KeyedDB.blank] at run ⊢
  rw [run]
  simp only
  rw [if_neg frontier]

theorem loadKeyedSnapshot_enlarge {d : Directory} {t : KeyedDB}
    (ok : loadKeyedSnapshot (.blank b format) d.snapshot = .ok t) :
    loadKeyedSnapshot (.blank c format) d.snapshot = .ok (t.enlarge c) ∧
      t.options = b ∧ t.sequence = d.readSnapshot.sequence ∧
      Window.Saw c.dedupeHorizon t.toWindow (d.readSnapshot.dedupe.map fun r => (r.commandID, r)) ∧
      Window.Spread c.dedupeHorizon (d.readSnapshot.dedupe.map (·.commandID)) := by
  unfold loadKeyedSnapshot Directory.readSnapshot at *
  cases file : d.snapshot with
  | none =>
    rw [file] at ok
    obtain rfl := Except.ok.inj ok
    exact ⟨rfl, rfl, rfl, .empty _, Window.spread_nil _⟩
  | some data =>
    rw [file] at ok
    simp only at ok ⊢
    split at ok
    · cases ok
    rename_i envelope read
    split at ok
    · cases ok
    rename_i known
    split at ok
    · cases ok
    rename_i checked
    split at ok
    · cases ok
    rename_i snapshot decoded
    obtain ⟨loads, saw, spread⟩ := loadSnapshot_enlarge larger ok
    have state := loadSnapshot_ok ok
    simp only [read, Option.bind_some, decoded, Option.getD_some]
    rw [if_neg known, if_neg checked, loads]
    exact ⟨rfl, by rw [state]; rfl, by rw [state], saw, spread⟩

end Snapshot

/-! ## Opening -/

theorem openStorage_enlarge_iff {b c : KeyedBounds} (larger : b.AtMost c) {db : KeyedDB}
    {d e : Directory} (accepted : openStorage (.blank b format) d = .ok (db, e)) :
    (∃ db' e', openStorage (.blank c format) d = .ok (db', e') ∧ db'.records = db.records ∧
        db'.sequence = db.sequence) ↔
      Window.Spread c.dedupeHorizon (d.decisions.map (·.commandID)) := by
  obtain ⟨marked, loaded, wal, format', load, replay, rfl⟩ := openStorage_ok_iff.mp accepted
  obtain ⟨snapshot, log⟩ := ensureKeyedFormat_files format'
  rw [snapshot] at load
  rw [log] at replay
  obtain ⟨load', options, sequence, saw, spread⟩ := loadKeyedSnapshot_enlarge larger load
  obtain ⟨s, frames, rfl, stop⟩ := replayKeyedWAL_ok_iff.mp replay
  have records := foldlM_replayFrame frames
  rw [records] at frames
  have twin : Twin b c { db := loaded } { db := loaded.enlarge c } :=
    ⟨options, rfl, rfl, rfl, rfl, rfl⟩
  have ids : d.readSnapshot.dedupe.map (·.commandID) =
      (d.readSnapshot.dedupe.map fun r => (r.commandID, r)).map (·.1) := by simp
  rw [ids] at spread
  obtain ⟨agree, succeeds⟩ := twin.run larger (.inl rfl) saw spread frames
  have decisions : d.decisions.map (·.commandID) =
      (d.readSnapshot.dedupe.map fun r => (r.commandID, r)).map (·.1) ++
        (d.readLog.filter (loaded.sequence < ·.sequence)).map (·.commandID) := by
    rw [Directory.decisions, List.map_append, ids, sequence]
  rw [decisions, Directory.readLog, ← succeeds]
  constructor
  · rintro ⟨db', e', opened, -, -⟩
    obtain ⟨marked', loaded', wal', again, load'', replay', rfl⟩ := openStorage_ok_iff.mp opened
    obtain rfl := Except.ok.inj (format'.symm.trans again)
    rw [snapshot, load'] at load''
    obtain rfl := Except.ok.inj load''
    obtain ⟨t, run, -, -⟩ := replayKeyedWAL_ok_iff.mp (log ▸ replay')
    exact ⟨t, records _ ▸ run⟩
  · rintro ⟨t, run⟩
    have twin := agree t run
    refine ⟨t.db, _, openStorage_ok_iff.mpr ⟨marked, loaded.enlarge c, wal, format',
      snapshot ▸ load', ?_, rfl⟩, twin.records, twin.sequence⟩
    rw [log]
    exact replayKeyedWAL_ok_iff.mpr ⟨t, (records _).trans run, rfl, stop⟩

theorem nonneg_of_orDefault {value : Int} {default : Nat} (pos : 0 < orDefault value default) :
    0 ≤ value := by
  unfold orDefault at pos
  split at pos <;> omega

theorem normalizeKeyedOptions_ok_iff {o : KeyedOptions} {b : KeyedBounds} :
    normalizeKeyedOptions o = .ok b ↔
      (0 ≤ o.maxRecords ∧ 0 ≤ o.dedupeHorizon ∧ 0 ≤ o.maxValueBytes ∧ 0 ≤ o.maxTransactionBytes) ∧
        b.maxRecords = orDefault o.maxRecords 100000 ∧
        b.dedupeHorizon = orDefault o.dedupeHorizon 100000 ∧
        b.maxValueBytes = orDefault o.maxValueBytes (2 ^ 20) ∧
        b.maxTransactionBytes = orDefault o.maxTransactionBytes (4 * 2 ^ 20) := by
  obtain ⟨maxRecords, dedupeHorizon, maxValueBytes, maxTransactionBytes, _, _, _, below⟩ := b
  unfold normalizeKeyedOptions
  constructor
  · intro h
    split at h
    · cases h
    split at h
    · cases h
    · injection Except.ok.inj h
      refine ⟨by omega, ?_⟩
      simp_all
  · rintro ⟨nonneg, rfl, rfl, rfl, rfl⟩
    rw [dif_neg (by omega), dif_neg (by omega)]

/-- A directory that opens also opens with larger bounds, with the same records and sequence,
exactly if the new options are consistent and no ID recurs within the new horizon among the
decisions that recovery reads. -/
theorem opens_with_larger_bounds_iff {o p : KeyedOptions} (larger : o.AtMost p)
    {format : KeyedFormat} {d e : Directory} {db : KeyedDB}
    (accepted : openKeyed o format d = .ok (db, e)) :
    (∃ db' e', openKeyed p format d = .ok (db', e') ∧ db'.records = db.records ∧
        db'.sequence = db.sequence) ↔
      orDefault p.maxValueBytes (2 ^ 20) ≤ orDefault p.maxTransactionBytes (4 * 2 ^ 20) ∧
        Window.Spread (orDefault p.dedupeHorizon 100000) (d.decisions.map (·.commandID)) := by
  obtain ⟨b, normal, opened⟩ := bind_ok.mp accepted
  obtain ⟨-, records, horizon, values, transactions⟩ := normalizeKeyedOptions_ok_iff.mp normal
  have nonneg : 0 ≤ p.maxRecords ∧ 0 ≤ p.dedupeHorizon ∧ 0 ≤ p.maxValueBytes ∧
      0 ≤ p.maxTransactionBytes := by
    have value := b.value_pos
    have whole := b.value_le_transaction
    refine ⟨nonneg_of_orDefault (lt_of_lt_of_le (records ▸ b.records_pos) larger.maxRecords),
      nonneg_of_orDefault (lt_of_lt_of_le (horizon ▸ b.horizon_pos) larger.dedupeHorizon),
      nonneg_of_orDefault (lt_of_lt_of_le (values ▸ value) larger.maxValueBytes),
      nonneg_of_orDefault (lt_of_lt_of_le (transactions ▸ ?_) larger.maxTransactionBytes)⟩
    omega
  by_cases consistent :
      orDefault p.maxValueBytes (2 ^ 20) ≤ orDefault p.maxTransactionBytes (4 * 2 ^ 20)
  · obtain ⟨c, normal'⟩ : ∃ c, normalizeKeyedOptions p = .ok c := by
      unfold normalizeKeyedOptions
      rw [dif_neg (by omega), dif_neg (by omega)]
      exact ⟨_, rfl⟩
    obtain ⟨-, records', horizon', values', transactions'⟩ :=
      normalizeKeyedOptions_ok_iff.mp normal'
    have atMost : b.AtMost c := ⟨by rw [records, records']; exact larger.maxRecords,
      by rw [horizon, horizon']; exact larger.dedupeHorizon,
      by rw [values, values']; exact larger.maxValueBytes,
      by rw [transactions, transactions']; exact larger.maxTransactionBytes⟩
    rw [openKeyed_ok normal', ← horizon', openStorage_enlarge_iff atMost opened]
    exact (and_iff_right consistent).symm
  · refine iff_of_false ?_ fun h => consistent h.1
    rintro ⟨db', e', opened', -, -⟩
    obtain ⟨c, normal', -⟩ := bind_ok.mp opened'
    obtain ⟨-, -, -, values', transactions'⟩ := normalizeKeyedOptions_ok_iff.mp normal'
    exact consistent (values' ▸ transactions' ▸ c.value_le_transaction)

section OneAndTwo

def horizonOptions (horizon : Int) : KeyedOptions := ⟨4, horizon, 16, 64⟩

def horizonBounds : KeyedBounds where
  maxRecords := 4
  dedupeHorizon := 1
  maxValueBytes := 16
  maxTransactionBytes := 64
  records_pos := smallBounds.records_pos
  horizon_pos := by decide
  value_pos := smallBounds.value_pos
  value_le_transaction := smallBounds.value_le_transaction

def oneStore : Store := (Store.fresh horizonBounds .keyed).commit [accepting "a"]

/-- The ID `a` is decided again behind two others. -/
def spreadStore : Store :=
  ((oneStore.commit [accepting "b"]).commit [accepting "c"]).commit [accepting "a"]

set_option maxRecDepth 8000 in
/-- Under a horizon of two as well `a` has expired by then. -/
theorem opens_with_larger_bounds_spread :
    ∃ db' e', openKeyed (horizonOptions 2) .keyed spreadStore.dir = .ok (db', e') ∧
      db'.sequence = 4 := by
  have larger : (horizonOptions 1).AtMost (horizonOptions 2) :=
    ⟨by decide, by decide, by decide, by decide⟩
  have opens : ((openKeyed (horizonOptions 1) .keyed spreadStore.dir).toOption.map
      (·.1.sequence)) = some 4 := by decide +kernel
  obtain ⟨⟨db, e⟩, accepted, sequence⟩ := Option.map_eq_some_iff.mp opens
  have spread : Window.Spread 2 (spreadStore.dir.decisions.map (·.commandID)) := by
    have ids : spreadStore.dir.decisions.map (·.commandID) =
        [] ++ [ascii "a"] ++ [ascii "b"] ++ [ascii "c"] ++ [ascii "a"] := by decide +kernel
    simp only [ids, Window.spread_concat]
    exact ⟨⟨⟨⟨Window.spread_nil _, by decide⟩, by decide⟩, by decide⟩, by decide⟩
  obtain ⟨db', e', opened, -, same⟩ := (opens_with_larger_bounds_iff larger
    (toOption_eq_some.mp accepted)).mpr ⟨by decide, spread⟩
  exact ⟨db', e', opened, same.trans sequence⟩

/-- Under a horizon of one the ID `a` is decided again once `b` has expired it. -/
def repeatedStore : Store := (oneStore.commit [accepting "b"]).commit [accepting "a"]

set_option maxRecDepth 8000 in
/-- The directory opens under a horizon of one and is refused under a horizon of two. -/
theorem larger_horizon_refused :
    (openKeyed (horizonOptions 1) .keyed {}).toOption.map (·.2) =
        some (Store.fresh horizonBounds .keyed).dir ∧
      (Store.fresh horizonBounds .keyed).ValidGroup [accepting "a"] ∧
      oneStore.ValidGroup [accepting "b"] ∧
      (oneStore.commit [accepting "b"]).ValidGroup [accepting "a"] ∧
      (openKeyed (horizonOptions 1) .keyed repeatedStore.dir).toOption.map (·.1.sequence) =
        some 3 ∧
      failure (openKeyed (horizonOptions 2) .keyed repeatedStore.dir) =
        some (openError .corruption "WAL repeats a retained command ID") := by
  decide +kernel

end OneAndTwo

end OctetDB
