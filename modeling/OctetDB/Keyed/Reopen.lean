import OctetDB.Keyed.Bounds
import OctetDB.Keyed.Recovery

/-!
# A store can always be reopened

In a run whose commands can all be recovered, every state passes the checks of recovery: those
of the snapshot loader on the state itself, and those of the replay on every record of the
log. Hence the store can be reopened after a crash at any point.
-/

namespace OctetDB

open Std

/-! ## Records that replay -/

/-- Records decided one after the other that all pass the checks of recovery. -/
def AcceptedRun : KeyedDB → List KeyedWALRecord → Prop
  | _, [] => True
  | db, r :: rs => (r.sequence = db.sequence + 1 ∧ r.sequence ≠ 0 ∧ r.commandID ∉ db.dedupe ∧
      AcceptsRecord db r ∧ validateKeyedApply db r = .ok ()) ∧ AcceptedRun (applyKeyed db r) rs

theorem acceptedRun_append (db : KeyedDB) (rs ts : List KeyedWALRecord) :
    AcceptedRun db (rs ++ ts) ↔
      AcceptedRun db rs ∧ AcceptedRun (rs.foldl applyKeyed db) ts := by
  induction rs generalizing db with
  | nil => simp [AcceptedRun]
  | cons r rs ih => simp [AcceptedRun, ih, and_assoc]

variable {r : KeyedWALRecord} {rs : List KeyedWALRecord}

/-- The checks of recovery depend on the options and the format only. -/
theorem AcceptsRecord.congr {db db' : KeyedDB} (h : AcceptsRecord db r)
    (options : db'.options = db.options) (format : db'.format = db.format) :
    AcceptsRecord db' r := by
  have keys : db'.maxStoredKeyBytes = db.maxStoredKeyBytes := by
    simp only [KeyedDB.maxStoredKeyBytes, format]
  exact { h with
    result_small := options ▸ h.result_small
    writes := fun m hm => { h.writes m hm with
      short := keys ▸ (h.writes m hm).short
      small := options ▸ (h.writes m hm).small }
    total := options ▸ h.total }

theorem acceptedRun_poisoned {db : KeyedDB} {poisoned : Bool} {rs : List KeyedWALRecord} :
    AcceptedRun { db with poisoned := poisoned } rs ↔ AcceptedRun db rs := by
  induction rs generalizing db with
  | nil => exact Iff.rfl
  | cons r rs ih =>
    refine and_congr ?_ (@ih (applyKeyed db r))
    refine and_congr_right fun _ => and_congr_right fun _ => and_congr_right fun _ =>
      and_congr_left fun _ => ⟨fun h => h.congr rfl rfl, fun h => h.congr rfl rfl⟩

/-- When a record is replayed, and to which state: it follows the record before and passes the
checks, and it is covered by the state or the next decision behind it. -/
theorem replayRecord_ok_iff {s t : Replay} :
    replayRecord s r = .ok t ↔
      r.sequence ≠ 0 ∧ (s.lastSequence = 0 ∨ r.sequence = s.lastSequence + 1) ∧
        AcceptsRecord s.db r ∧
        ((r.sequence ≤ s.db.sequence ∧ t = ⟨s.db, r.sequence⟩) ∨
          (s.db.sequence < r.sequence ∧ r.sequence = s.db.sequence + 1 ∧
            r.commandID ∉ s.db.dedupe ∧ validateKeyedApply s.db r = .ok () ∧
            t = ⟨applyKeyed s.db r, r.sequence⟩)) := by
  unfold replayRecord
  constructor
  · intro h
    split at h
    · cases h
    rename_i contiguous
    split at h
    · cases h
    rename_i valid
    have accepts := validateKeyedRecord_ok.mp valid
    refine ⟨by tauto, by tauto, accepts, ?_⟩
    split at h
    · rename_i behind
      split at h
      · cases h
      split at h
      · cases h
      split at h
      · cases h
      rename_i next fresh _ room
      exact .inr ⟨behind, not_not.mp next, fresh, room, (Except.ok.inj h).symm⟩
    · rename_i covered
      exact .inl ⟨UInt64.not_lt.mp covered, (Except.ok.inj h).symm⟩
  · rintro ⟨nonzero, contiguous, accepts, last⟩
    rw [if_neg (by tauto), validateKeyedRecord_ok.mpr accepts]
    simp only
    rcases last with ⟨covered, rfl⟩ | ⟨behind, next, fresh, room, rfl⟩
    · rw [if_neg (UInt64.not_lt.mpr covered)]
    · rw [if_pos behind, if_neg (not_not.mpr next), if_neg fresh, room]

/-- The replay has applied nothing since the sequence `base`, or its last record was applied. -/
def Replay.Since (base : UInt64) (s : Replay) : Prop :=
  s.db.sequence = base ∨ (s.lastSequence = s.db.sequence ∧ base < s.db.sequence)

section Since

variable {base : UInt64} {s t : Replay} (since : s.Since base)

include since

theorem Replay.Since.le : base ≤ s.db.sequence := by
  rcases since with start | ⟨-, above⟩
  · exact UInt64.le_of_eq start.symm
  · exact UInt64.le_of_lt above

/-- Once a record was applied, the next one is behind the state. -/
theorem Replay.Since.covered (ok : replayRecord s r = .ok t) (low : r.sequence ≤ s.db.sequence) :
    s.db.sequence = base := by
  obtain ⟨nonzero, contiguous, -⟩ := replayRecord_ok_iff.mp ok
  rcases since with start | ⟨same, above⟩
  · exact start
  · rcases contiguous with zero | next <;> grind

theorem Replay.Since.step (ok : replayRecord s r = .ok t) : t.Since base := by
  obtain ⟨-, last, ⟨behind, applied⟩ | ⟨low, same⟩⟩ := replayRecord_ok ok
  · have sequence : t.db.sequence = r.sequence := by rw [applied]; rfl
    rw [← sequence] at last behind
    exact .inr ⟨last, UInt64.lt_of_le_of_lt since.le behind⟩
  · exact .inl (same ▸ since.covered ok low)

theorem Replay.Since.run (ok : rs.foldlM replayRecord s = .ok t) : t.Since base := by
  induction rs generalizing s with
  | nil => exact foldlM_nil_ok.mp ok ▸ since
  | cons r rs ih =>
    obtain ⟨u, first, later⟩ := foldlM_cons_ok.mp ok
    exact ih (since.step first) later

end Since

/-- The sequence before and the next record are contiguous, or there was no record before. -/
def Continues (last first : UInt64) : Prop := last = 0 ∨ last = first

theorem Continues.contiguous {last first next : UInt64} (start : Continues last first)
    (eq : next = first + 1) : last = 0 ∨ next = last + 1 :=
  start.imp_right fun (same : last = first) => by rw [same, eq]

/-- Records covered by the state replay, without effect. -/
theorem replay_covered_ok {s : Replay} {rs : List KeyedWALRecord} {first : UInt64}
    (chain : Consecutive first rs) (start : Continues s.lastSequence first)
    (covered : endSequence first rs ≤ s.db.sequence)
    (accepts : ∀ r ∈ rs, AcceptsRecord s.db r ∧ r.sequence ≠ 0) :
    ∃ last, rs.foldlM replayRecord s = .ok ⟨s.db, last⟩ ∧
      Continues last (endSequence first rs) := by
  induction rs generalizing s first with
  | nil => exact ⟨s.lastSequence, rfl, start⟩
  | cons r rs ih =>
    obtain ⟨⟨accept, nonzero⟩, later⟩ := List.forall_mem_cons.mp accepts
    obtain ⟨next, chain⟩ := chain
    rw [endSequence_cons] at covered
    have low : r.sequence ≤ s.db.sequence :=
      UInt64.le_trans (le_endSequence chain fun q hq => (later q hq).2) covered
    have step : replayRecord s r = .ok ⟨s.db, r.sequence⟩ :=
      replayRecord_ok_iff.mpr ⟨nonzero, start.contiguous next, accept, .inl ⟨low, rfl⟩⟩
    obtain ⟨last, run, continues⟩ :=
      @ih ⟨s.db, r.sequence⟩ r.sequence chain (.inr rfl) covered later
    exact ⟨last, foldlM_cons_ok.mpr ⟨_, step, run⟩, continues⟩

/-- Records behind the state replay and are applied. -/
theorem replay_tail_ok {s : Replay} {rs : List KeyedWALRecord}
    (start : Continues s.lastSequence s.db.sequence) (accepted : AcceptedRun s.db rs) :
    ∃ last, rs.foldlM replayRecord s = .ok ⟨rs.foldl applyKeyed s.db, last⟩ ∧
      Continues last (rs.foldl applyKeyed s.db).sequence := by
  induction rs generalizing s with
  | nil => exact ⟨s.lastSequence, rfl, start⟩
  | cons r rs ih =>
    obtain ⟨⟨next, nonzero, fresh, accept, room⟩, later⟩ := accepted
    have behind : s.db.sequence < r.sequence := by grind
    have step : replayRecord s r = .ok ⟨applyKeyed s.db r, r.sequence⟩ :=
      replayRecord_ok_iff.mpr
        ⟨nonzero, start.contiguous next, accept, .inr ⟨behind, next, fresh, room, rfl⟩⟩
    obtain ⟨last, run, continues⟩ := @ih ⟨applyKeyed s.db r, r.sequence⟩ (.inr rfl) later
    exact ⟨last, foldlM_cons_ok.mpr ⟨_, step, run⟩, continues⟩

/-! ## States that load -/

/-- What the snapshot loader asks of a record of the state. -/
structure AcceptsEntry (db : KeyedDB) (key value : Bytes) : Prop where
  nonempty : key ≠ []
  short : key.length ≤ db.maxStoredKeyBytes
  small : value.length ≤ db.options.maxValueBytes
  json : Json.valid value = true

/-- The retained decisions, oldest first. -/
def KeyedDB.decisions (db : KeyedDB) : List KeyedWALRecord := db.toWindow.values {}

/-- A state that the snapshot loader accepts. -/
structure Sound (db : KeyedDB) : Prop where
  count : db.records.size ≤ db.options.maxRecords
  entries : ∀ (key value : Bytes), db.records[key]? = some value → AcceptsEntry db key value
  accepts : ∀ r ∈ db.decisions, AcceptsRecord db r ∧ r.sequence ≠ 0
  chain : ∃ first, Consecutive first db.decisions ∧ endSequence first db.decisions = db.sequence
  frontier : db.decisions = [] → db.sequence = 0

theorem Sound.blank (options : KeyedBounds) (format : KeyedFormat) :
    Sound (.blank options format) where
  count := by simp [KeyedDB.blank]
  entries := by simp [KeyedDB.blank]
  accepts := by simp [KeyedDB.decisions, KeyedDB.blank, Window.values]
  chain := ⟨0, trivial, rfl⟩
  frontier _ := rfl

/-- The size after writes to distinct keys is what the writer and recovery both count. -/
theorem size_foldl_applyMutation {records old : ByteMap Bytes} {ms : List KeyedMutation}
    (distinct : (ms.map (·.key)).Nodup) (same : ∀ m ∈ ms, m.key ∈ records ↔ m.key ∈ old) :
    ((ms.foldl applyMutation records).size : Int) = ms.foldl (countWrite old) records.size := by
  induction ms generalizing records with
  | nil => rfl
  | cons m ms ih =>
    obtain ⟨here, later⟩ := List.forall_mem_cons.mp same
    rw [List.map_cons, List.nodup_cons] at distinct
    have size : ((applyMutation records m).size : Int) = countWrite old records.size m := by
      unfold applyMutation countWrite
      have pos : m.key ∈ records → 0 < records.size := fun mem => by
        rw [Nat.pos_iff_ne_zero, ne_eq, ← ExtTreeMap.eq_empty_iff_size_eq_zero]
        rintro rfl
        simp at mem
      cases m.delete <;> by_cases mem : m.key ∈ records <;>
        simp [ExtTreeMap.size_insert, ExtTreeMap.size_erase, mem, ← here]
      have := pos mem
      omega
    rw [List.foldl_cons, List.foldl_cons, ← size]
    refine ih distinct.2 fun q hq => ?_
    have other : m.key ≠ q.key := fun eq => distinct.1 (List.mem_map.mpr ⟨q, hq, eq.symm⟩)
    rw [← later q hq]
    unfold applyMutation
    split <;> simp [other]

theorem getElem?_foldl_applyMutation {records : ByteMap Bytes} {ms : List KeyedMutation}
    {key value : Bytes} (h : (ms.foldl applyMutation records)[key]? = some value) :
    records[key]? = some value ∨ ∃ m ∈ ms, m.delete = false ∧ m.key = key ∧ m.value = value := by
  induction ms generalizing records with
  | nil => exact .inl h
  | cons m ms ih =>
    rcases ih h with old | ⟨n, mem, put⟩
    · unfold applyMutation at old
      cases delete : m.delete with
      | true =>
        simp only [delete, if_true, ExtTreeMap.getElem?_erase] at old
        split at old
        · cases old
        · exact .inl old
      | false =>
        simp only [delete, Bool.false_eq_true, if_false, ExtTreeMap.getElem?_insert] at old
        split at old
        · rename_i same
          exact .inr ⟨m, by simp, delete, by simpa using same, Option.some_inj.mp old⟩
        · exact .inl old
    · exact .inr ⟨n, by simp [mem], put⟩

theorem validateKeyedApply_ok {db : KeyedDB} (h : validateKeyedApply db r = .ok ())
    (applied : r.applied = true) :
    r.mutations.foldl (countWrite db.records) db.records.size ≤ db.options.maxRecords := by
  rw [validateKeyedApply, if_neg (by simp [applied])] at h
  split at h
  · cases h
  · omega

/-- A decision that passes the checks of recovery leads to a state that passes them. -/
theorem Sound.apply {db : KeyedDB} {r : KeyedWALRecord} (h : Sound db)
    (window : db.toWindow.Consistent db.options.dedupeHorizon) (next : r.sequence = db.sequence + 1)
    (nonzero : r.sequence ≠ 0) (fresh : r.commandID ∉ db.dedupe) (accepts : AcceptsRecord db r)
    (room : validateKeyedApply db r = .ok ()) : Sound (applyKeyed db r) := by
  have retained : AcceptsRecord db r.retained :=
    { accepts with
      rejected_bare := fun _ => rfl
      writes := by simp
      distinct := by simp
      total := Nat.zero_le _ }
  have values : (applyKeyed db r).decisions = db.decisions ++ [r.retained] ∨
      (db.decisions ≠ [] ∧ (applyKeyed db r).decisions = db.decisions.tail ++ [r.retained]) := by
    rcases Window.values_retain {} window fresh db.options.horizon_pos with h | ⟨nonempty, h⟩
    · exact .inl h
    · exact .inr ⟨by simpa [KeyedDB.decisions, Window.values] using nonempty, h⟩
  obtain ⟨first, chain, last⟩ := h.chain
  refine ⟨?_, ?_, ?_, ?_, ?_⟩
  · cases applied : r.applied with
    | false => simpa [applyKeyed, applied] using h.count
    | true =>
      have count := validateKeyedApply_ok room applied
      rw [← size_foldl_applyMutation accepts.distinct fun _ _ => Iff.rfl] at count
      simpa [applyKeyed, applied] using count
  · intro key value get
    have entry : AcceptsEntry db key value := by
      simp only [applyKeyed] at get
      split at get
      · rcases getElem?_foldl_applyMutation get with old | ⟨m, mem, put, rfl, rfl⟩
        · exact h.entries key value old
        · have write := accepts.writes m mem
          exact ⟨write.nonempty, write.short, write.small, write.json put⟩
      · exact h.entries key value get
    exact ⟨entry.nonempty, entry.short, entry.small, entry.json⟩
  · have all : ∀ q ∈ db.decisions ++ [r.retained], AcceptsRecord (applyKeyed db r) q ∧
        q.sequence ≠ 0 := by
      intro q hq
      rcases List.mem_append.mp hq with old | new
      · exact ⟨(h.accepts q old).1.congr rfl rfl, (h.accepts q old).2⟩
      · obtain rfl := List.mem_singleton.mp new
        exact ⟨retained.congr rfl rfl, nonzero⟩
    rcases values with eq | ⟨-, eq⟩ <;> rw [eq] <;> intro q hq
    · exact all q hq
    · refine all q ?_
      rcases List.mem_append.mp hq with old | new
      · exact List.mem_append_left _ (List.mem_of_mem_tail old)
      · exact List.mem_append_right _ new
  · rcases values with eq | ⟨nonempty, eq⟩
    · refine ⟨first, ?_, ?_⟩ <;> rw [eq]
      · exact (consecutive_append _ _ _).mpr ⟨chain, by simp [Consecutive, last, next]⟩
      · simp
    · obtain ⟨q, rest, split⟩ := List.exists_cons_of_ne_nil nonempty
      rw [split] at eq chain last
      refine ⟨q.sequence, ?_, ?_⟩ <;> rw [eq, List.tail_cons]
      · exact (consecutive_append _ _ _).mpr
          ⟨chain.2, by rw [endSequence_cons] at last; simp [Consecutive, last, next]⟩
      · simp
  · intro empty
    rcases values with eq | ⟨-, eq⟩ <;> rw [eq] at empty <;> simp at empty

theorem Sound.foldl {db : KeyedDB} (h : Sound db)
    (window : db.toWindow.Consistent db.options.dedupeHorizon) (run : AcceptedRun db rs) :
    Sound (rs.foldl applyKeyed db) := by
  induction rs generalizing db with
  | nil => exact h
  | cons r rs ih =>
    obtain ⟨⟨next, nonzero, fresh, accepts, room⟩, later⟩ := run
    exact ih (h.apply window next nonzero fresh accepts room)
      (window.retain fresh db.options.horizon_pos) later

theorem AcceptedRun.accepts {db : KeyedDB} (run : AcceptedRun db rs) :
    ∀ r ∈ rs, AcceptsRecord db r ∧ r.sequence ≠ 0 := by
  induction rs generalizing db with
  | nil => simp
  | cons r rs ih =>
    obtain ⟨⟨-, nonzero, -, accepts, -⟩, later⟩ := run
    refine List.forall_mem_cons.mpr ⟨⟨accepts, nonzero⟩, fun q hq => ?_⟩
    obtain ⟨accept, positive⟩ := ih later q hq
    exact ⟨accept.congr rfl rfl, positive⟩

/-! ## Loading and replaying succeed -/

theorem Continues.lt {last first next : UInt64} (start : Continues last first)
    (eq : next = first + 1) (nonzero : next ≠ 0) : last < next := by
  rcases start with rfl | rfl <;> grind

theorem loadDedupe_ok_iff {sequence : UInt64} {s t : Replay} {r : KeyedWALRecord} :
    loadDedupe sequence s r = .ok t ↔
      r.sequence ≠ 0 ∧ r.sequence ≤ sequence ∧ AcceptsRecord s.db r ∧
        s.lastSequence < r.sequence ∧ r.commandID ∉ s.db.dedupe ∧
        t = ⟨{ s.db with
          dedupe := s.db.dedupe.insert r.commandID r
          dedupeIDs := s.db.dedupeIDs ++ [r.commandID] }, r.sequence⟩ := by
  unfold loadDedupe
  constructor
  · intro h
    split at h
    · cases h
    rename_i proper
    split at h
    · cases h
    rename_i valid
    split at h
    · cases h
    split at h
    · cases h
    rename_i order fresh
    simp only [not_or, UInt64.not_lt] at proper
    exact ⟨proper.2.1, proper.2.2, validateKeyedRecord_ok.mp valid, UInt64.not_le.mp order, fresh,
      (Except.ok.inj h).symm⟩
  · rintro ⟨nonzero, low, accepts, order, fresh, rfl⟩
    rw [if_neg (by simp [accepts.named, nonzero, UInt64.not_lt.mpr low]),
      validateKeyedRecord_ok.mpr accepts]
    simp only
    rw [if_neg (UInt64.not_le.mpr order), if_neg fresh]

theorem loadDedupe_run {sequence first : UInt64} {s : Replay} {rs : List KeyedWALRecord}
    (accepts : ∀ r ∈ rs, AcceptsRecord s.db r ∧ r.sequence ≠ 0)
    (chain : Consecutive first rs) (start : Continues s.lastSequence first)
    (low : endSequence first rs ≤ sequence) (distinct : (rs.map (·.commandID)).Nodup)
    (fresh : ∀ r ∈ rs, r.commandID ∉ s.db.dedupe) :
    ∃ t, rs.foldlM (loadDedupe sequence) s = .ok t ∧
      t.lastSequence = endSequence s.lastSequence rs := by
  induction rs generalizing s first with
  | nil => exact ⟨s, rfl, rfl⟩
  | cons r rs ih =>
    obtain ⟨⟨accept, nonzero⟩, laterAccepts⟩ := List.forall_mem_cons.mp accepts
    obtain ⟨new, laterFresh⟩ := List.forall_mem_cons.mp fresh
    obtain ⟨next, chain⟩ := chain
    rw [List.map_cons, List.nodup_cons] at distinct
    rw [endSequence_cons] at low
    have bound := UInt64.le_trans (le_endSequence chain fun q hq => (laterAccepts q hq).2) low
    have order := start.lt next nonzero
    have step : loadDedupe sequence s r = .ok ⟨{ s.db with
        dedupe := s.db.dedupe.insert r.commandID r
        dedupeIDs := s.db.dedupeIDs ++ [r.commandID] }, r.sequence⟩ :=
      loadDedupe_ok_iff.mpr ⟨nonzero, bound, accept, order, new, rfl⟩
    obtain ⟨t, run, last⟩ := @ih r.sequence ⟨{ s.db with
        dedupe := s.db.dedupe.insert r.commandID r
        dedupeIDs := s.db.dedupeIDs ++ [r.commandID] }, r.sequence⟩
      (fun q hq => ⟨(laterAccepts q hq).1.congr rfl rfl, (laterAccepts q hq).2⟩) chain (.inr rfl)
      low distinct.2 (by
        intro q hq
        have other : r.commandID ≠ q.commandID := fun eq =>
          distinct.1 (List.mem_map.mpr ⟨q, hq, eq.symm⟩)
        simp [laterFresh q hq, other])
    exact ⟨t, foldlM_cons_ok.mpr ⟨_, step, run⟩, last⟩

theorem Sound.load {db : KeyedDB} (h : Sound db) (p : Persistable db) :
    ∃ t, loadSnapshot (.blank db.options db.format) db.toSnapshot = .ok t := by
  have records : forM db.toSnapshot.records.toList
      (validateSnapshotRecord (.blank db.options db.format)) = .ok () := by
    rw [forM_ok]
    rintro ⟨key, value⟩ mem
    have entry := h.entries key value (ExtTreeMap.mem_toList_iff_getElem?_eq_some.mp mem)
    have short : key.length ≤ (KeyedDB.blank db.options db.format).maxStoredKeyBytes := entry.short
    have small : value.length ≤ (KeyedDB.blank db.options db.format).options.maxValueBytes :=
      entry.small
    rw [validateSnapshotRecord, if_neg (by simp only; omega),
      if_neg (by simp [entry.nonempty, entry.json]; omega)]
  have ids : db.decisions.map (·.commandID) = db.dedupeIDs := by
    simp only [KeyedDB.decisions, Window.values, List.map_map]
    conv_rhs => rw [← List.map_id db.dedupeIDs]
    exact List.map_congr_left fun id mem => (p.retained id _ (p.dedupe_eq mem)).1
  have length : db.toSnapshot.dedupe.length ≤ db.options.dedupeHorizon := by
    simpa [KeyedDB.toSnapshot] using p.window.length_le
  obtain ⟨first, chain, last⟩ := h.chain
  have start : Continues 0 first := .inl rfl
  obtain ⟨t, run, final⟩ := @loadDedupe_run db.sequence first
    { db := { KeyedDB.blank db.options db.format with
        records := db.records, sequence := db.sequence } } db.decisions
    (fun r hr => ⟨(h.accepts r hr).1.congr rfl rfl, (h.accepts r hr).2⟩) chain start
    (last ▸ UInt64.le_refl _) (ids ▸ p.window.nodup) (by simp [KeyedDB.blank])
  refine ⟨t.db, ?_⟩
  have dedupe : db.toSnapshot.dedupe = db.decisions := rfl
  rw [loadSnapshot, if_neg (by have := h.count; simp [KeyedDB.blank]; exact ⟨this, length⟩),
    records]
  simp only [dedupe]
  rw [show db.toSnapshot.sequence = db.sequence from rfl,
    show db.toSnapshot.records = db.records from rfl, run]
  simp only
  rw [if_neg]
  rintro ⟨started, empty | other⟩
  · exact started (h.frontier empty)
  · refine other ?_
    rw [final, ← last]
    cases decisions : db.decisions with
    | nil => exact absurd (h.frontier decisions) started
    | cons r rs => rfl

/-! ## Runs of recoverable commands -/

/-- The loop state in which a request of a group gets its turn. -/
def Store.turn (st : Store) (size : Nat) (before : List KeyedCommitRequest) : GroupState :=
  before.foldl (groupStep {}) (.start st.db (st.dir.wal.getD []) size)

theorem applied_processCommitGroup (st : Store) (requests : List KeyedCommitRequest) :
    (processCommitGroup {} st.db (st.dir.wal.getD []) requests).applied =
      (st.turn requests.length requests).applied := by
  simp only [processCommitGroup, GroupState.finish, Store.turn]
  split <;> rfl

/-- Every request whose record the group appends runs a callback of the API that can be
recovered on the state of its turn, and no sequence number wraps around. -/
def Store.SoundGroup (st : Store) (requests : List KeyedCommitRequest) : Prop :=
  ∀ before request after, requests = before ++ request :: after →
    let s := st.turn requests.length before
    (groupStep {} s request).applied ≠ s.applied →
    ∀ callback, request.mutation = some callback →
      ApiCallback s.db callback ∧ Recoverable s.db (callback { db := s.db }) ∧
        s.db.sequence + 1 ≠ 0

def Store.RecoverableGroup (st : Store) (requests : List KeyedCommitRequest) : Prop :=
  st.ValidGroup requests ∧ st.SoundGroup requests

/-- The records of a sound group pass the checks of recovery one after the other. -/
theorem Store.SoundGroup.accepted {st : Store} {requests : List KeyedCommitRequest}
    (sound : st.SoundGroup requests) :
    AcceptedRun st.db
      (processCommitGroup {} st.db (st.dir.wal.getD []) requests).applied := by
  have loop : Staged st.db (st.dir.wal.getD []) (st.turn requests.length requests) ∧
      AcceptedRun st.db (st.turn requests.length requests).applied := by
    refine @foldl_induction _ _ (groupStep {})
      (fun _ s => Staged st.db (st.dir.wal.getD []) s ∧ AcceptedRun st.db s.applied) _ _
      ⟨.start _ _ _, trivial⟩ ?_
    rintro before request after split ⟨staged, run⟩
    refine ⟨staged.step request, ?_⟩
    have safe := sound before request after split
    simp only [Store.turn] at safe
    generalize before.foldl (groupStep {}) _ = s at *
    have effect := groupStep_spec {} s request
    generalize groupStep {} s request = t at effect safe ⊢
    cases effect with
    | @accepted record wal live decided append =>
      obtain ⟨-, -, absent, callback, eq, made⟩ := executeKeyed_eq_decided decided
      obtain ⟨same, next⟩ := decideKeyed_identity made
      obtain ⟨api, recoverable, nonzero⟩ :=
        safe (by simp [GroupState.answer, GroupState.accept]) callback eq
      rw [eq] at decided
      obtain ⟨agree, room⟩ := accepts_decided_iff api decided
      have accepts := agree.mpr recoverable
      have state := staged.state
      refine (acceptedRun_append _ _ _).mpr ⟨run, ?_⟩
      rw [← @acceptedRun_poisoned _ s.db.poisoned, ← state]
      refine ⟨⟨next, next ▸ nonzero, ?_, accepts, room⟩, trivial⟩
      rw [same, ExtTreeMap.mem_iff_isSome_getElem?, absent]
      simp
    | _ => exact run
  rw [applied_processCommitGroup]
  exact loop.2

/-- Files that tell the live state and pass the checks of recovery. -/
structure SoundImage (options : KeyedBounds) (format : KeyedFormat) (st : Store) (base : KeyedDB)
    (covered tail : List KeyedWALRecord) (first : UInt64) : Prop extends
    Image options format st base covered tail first where
  sound : Sound base
  accepts : ∀ r ∈ covered, AcceptsRecord base r ∧ r.sequence ≠ 0
  run : AcceptedRun base tail

def SoundLogged (options : KeyedBounds) (format : KeyedFormat) (st : Store) : Prop :=
  ∃ base covered tail first, SoundImage options format st base covered tail first

section Open

variable {options : KeyedBounds} {format : KeyedFormat} {st : Store} {base : KeyedDB}
  {covered tail : List KeyedWALRecord} {first : UInt64}

theorem SoundImage.loads (image : SoundImage options format st base covered tail first) :
    loadKeyedSnapshot (.blank options format) st.dir.snapshot = .ok base := by
  suffices ∃ db, loadKeyedSnapshot (.blank options format) st.dir.snapshot = .ok db by
    obtain ⟨db, load⟩ := this
    rw [load, image.loaded load]
  rcases image.snapshot with ⟨none, -⟩ | file
  · exact ⟨_, by rw [none]; rfl⟩
  · obtain ⟨db, load⟩ := image.sound.load image.persistable
    rw [image.opened.options_eq, image.opened.format_eq] at load
    rw [file, image.persistable.loadKeyedSnapshot_eq]
    exact ⟨db, load⟩

theorem SoundLogged.opens (h : SoundLogged options format st) :
    ∃ db d, openStorage (.blank options format) st.dir = .ok (db, d) := by
  obtain ⟨base, covered, tail, first, image⟩ := h
  obtain ⟨last, skip, continues⟩ := @replay_covered_ok { db := base } covered first image.chain
    (.inl rfl) (image.frontier ▸ UInt64.le_refl _) image.accepts
  obtain ⟨final, apply, -⟩ :=
    @replay_tail_ok ⟨base, last⟩ tail (image.frontier ▸ continues) image.run
  have replay := foldlM_append_ok.mpr ⟨_, skip, apply⟩
  rw [openStorage_marked image.marker, image.loads]
  simp only
  rw [image.wal, replayKeyedWAL_logOf image.loggable, replay]
  exact ⟨_, _, rfl⟩

theorem SoundLogged.crash (h : SoundLogged options format st) (n : Nat) :
    SoundLogged options format ⟨st.db, st.crash n⟩ := by
  obtain ⟨base, covered, tail, first, image⟩ := h
  have live : Sound (tail.foldl applyKeyed base) :=
    image.sound.foldl image.persistable.window image.run
  rcases image.crash n with files | files | files
  · exact ⟨_, _, _, _, files, image.sound, image.accepts, image.run⟩
  · refine ⟨_, _, _, _, files, live, fun r hr => ?_, trivial⟩
    have same := image.opened.foldl tail
    have accept : AcceptsRecord base r ∧ r.sequence ≠ 0 := by
      rcases List.mem_append.mp hr with old | new
      · exact image.accepts r old
      · exact image.run.accepts r new
    exact ⟨accept.1.congr (same.1.trans image.opened.1.symm) (same.2.trans image.opened.2.symm),
      accept.2⟩
  · exact ⟨_, _, _, _, files, live, by simp, trivial⟩

theorem SoundImage.run_commit (image : SoundImage options format st base covered tail first)
    {requests : List KeyedCommitRequest} (sound : st.SoundGroup requests) :
    AcceptedRun base
      (tail ++ (processCommitGroup {} st.db (st.dir.wal.getD []) requests).applied) := by
  have run := sound.accepted
  generalize (processCommitGroup {} st.db (st.dir.wal.getD []) requests).applied = applied at run ⊢
  rw [image.state, acceptedRun_poisoned] at run
  exact (acceptedRun_append _ _ _).mpr ⟨image.run, run⟩

/-- After a recoverable group the files pass the checks of recovery. -/
theorem SoundLogged.commit (h : SoundLogged options format st)
    {requests : List KeyedCommitRequest} (recoverable : st.RecoverableGroup requests) :
    SoundLogged options format (st.commit requests) := by
  obtain ⟨base, covered, tail, first, image⟩ := h
  exact ⟨_, _, _, _, image.commit recoverable.1, image.sound, image.accepts,
    image.run_commit recoverable.2⟩

theorem SoundLogged.tear (h : SoundLogged options format st)
    {requests : List KeyedCommitRequest} (recoverable : st.RecoverableGroup requests) (n : Nat) :
    ∃ cut, SoundLogged options format cut ∧
      openStorage (.blank options format) (st.tear requests n) =
        openStorage (.blank options format) cut.dir := by
  obtain ⟨base, covered, tail, first, image⟩ := h
  obtain ⟨before, after, cut, split, files, same⟩ := image.tear recoverable.1 n
  have run := image.run_commit recoverable.2
  rw [split, ← List.append_assoc, acceptedRun_append] at run
  exact ⟨cut, ⟨_, _, _, _, files, image.sound, image.accepts, run.1⟩, same⟩

theorem SoundLogged.reopen (h : SoundLogged options format st) {db : KeyedDB} {d : Directory}
    (accepted : openStorage (.blank options format) st.dir = .ok (db, d)) :
    SoundLogged options format ⟨db, d⟩ := by
  obtain ⟨base, covered, tail, first, image⟩ := h
  exact ⟨_, _, _, _, image.reopen accepted, image.sound, image.accepts, image.run⟩

end Open

/-- Runs of recoverable groups keep files that pass the checks. -/
theorem SoundLogged.run {options : KeyedOptions} {bounds : KeyedBounds} {format : KeyedFormat}
    {start st : Store} (normal : normalizeKeyedOptions options = .ok bounds)
    (logged : SoundLogged bounds format start)
    (run : Relation.ReflTransGen (Store.Step options format Store.RecoverableGroup) start st) :
    SoundLogged bounds format st := by
  induction run with
  | refl => exact logged
  | tail _ step ih =>
    cases step with
    | commit requests recoverable => exact ih.commit recoverable
    | snapshot live => exact ih.crash snapshotOps.length
    | reopen n accepted =>
      rw [openKeyed_ok normal] at accepted
      exact (ih.crash n).reopen accepted
    | torn requests recoverable n accepted =>
      obtain ⟨cut, files, same⟩ := ih.tear recoverable n
      rw [openKeyed_ok normal, same] at accepted
      exact files.reopen accepted

theorem Store.Reachable.soundLogged {options : KeyedOptions} {bounds : KeyedBounds}
    {format : KeyedFormat} {st : Store} (normal : normalizeKeyedOptions options = .ok bounds)
    (reachable : st.Reachable options format Store.RecoverableGroup) :
    SoundLogged bounds format st := by
  obtain ⟨⟨db, dir⟩, opened, run⟩ := reachable
  rw [openKeyed_empty normal] at opened
  cases opened
  exact .run normal ⟨_, _, _, _, image_fresh bounds format, Sound.blank bounds format, by simp,
    trivial⟩ run

/-- Only a handle with accepted options has runs. -/
theorem Store.Reachable.normal {options : KeyedOptions} {format : KeyedFormat} {st : Store}
    {allowed : Store → List KeyedCommitRequest → Prop}
    (reachable : st.Reachable options format allowed) :
    ∃ bounds, normalizeKeyedOptions options = .ok bounds := by
  obtain ⟨start, opened, -⟩ := reachable
  cases normal : normalizeKeyedOptions options with
  | error err => simp [openKeyed, normal, bind, Except.bind] at opened
  | ok bounds => exact ⟨bounds, rfl⟩

/-- Writer and recovery agree on a decision exactly if it can be recovered; and a store whose
decisions can all be recovered can be reopened after a crash at any point of a snapshot and at
any point of a further group. -/
theorem writer_recovery_agree (db : KeyedDB) (callback : MutationFunc) (options : KeyedOptions)
    (format : KeyedFormat) (st : Store) :
    (ApiCallback db callback → ∀ id record,
      executeKeyed db id (some callback) = .decided record →
      ((validateKeyedRecord db record = .ok () ∧ validateKeyedApply db record = .ok ()) ↔
        Recoverable db (callback { db := db }))) ∧
    (st.Reachable options format Store.RecoverableGroup →
      (∀ n, ∃ db d, openKeyed options format (st.crash n) = .ok (db, d)) ∧
      ∀ requests, st.RecoverableGroup requests →
        ∀ n, ∃ db d, openKeyed options format (st.tear requests n) = .ok (db, d)) := by
  constructor
  · intro api id record decided
    obtain ⟨agree, room⟩ := accepts_decided_iff api decided
    rw [validateKeyedRecord_ok, agree]
    exact and_iff_left room
  · intro reachable
    obtain ⟨bounds, normal⟩ := reachable.normal
    have logged := reachable.soundLogged normal
    constructor
    · intro n
      rw [openKeyed_ok normal]
      exact (logged.crash n).opens
    · intro requests recoverable n
      obtain ⟨cut, files, same⟩ := logged.tear recoverable n
      rw [openKeyed_ok normal, same]
      exact files.opens

/-! ## Logs with a torn tail -/

section Torn

variable {blank db : KeyedDB} {d : Directory}

/-- Opening a marked directory whose snapshot loads: the whole frames of the log are replayed,
and the rest of it is cut off. -/
theorem openStorage_torn (marker : d.format = some blank.format.contents)
    (loads : loadKeyedSnapshot blank d.snapshot = .ok db)
    (short : ∀ r ∈ rs, r.marshal.length ≤ maxKeyedFrameBytes) {s : Replay}
    (replay : (rs.map KeyedWALRecord.coerce).foldlM replayRecord { db := db } = .ok s)
    {tail : Bytes} (torn : Frame.Torn 1 maxKeyedFrameBytes tail) :
    openStorage blank { d with wal := some (logOf rs ++ tail) } =
      .ok (s.db, { d with wal := some (logOf rs) }) := by
  have opens := @openStorage_marked blank { d with wal := some (logOf rs ++ tail) } marker
  simp only [loads, Option.getD_some, replayKeyedWAL_coerced short torn, replay] at opens
  exact opens

theorem loadKeyedSnapshot_sequence {bounds : KeyedBounds} {format : KeyedFormat}
    (loads : loadKeyedSnapshot (.blank bounds format) d.snapshot = .ok db) :
    db.sequence = d.readSnapshot.sequence := by
  unfold Directory.readSnapshot
  unfold loadKeyedSnapshot at loads
  cases file : d.snapshot with
  | none =>
    rw [file] at loads
    obtain rfl := Except.ok.inj loads
    rfl
  | some data =>
    rw [file] at loads
    grind [→ loadSnapshot_ok]

/-- Some of the first records of a log that starts with records the state covers. -/
theorem replay_leading {covered fresh before after : List KeyedWALRecord} {first : UInt64}
    (chain : Consecutive first covered) (frontier : endSequence first covered = db.sequence)
    (old : ∀ r ∈ covered, AcceptsRecord db r ∧ r.sequence ≠ 0) (accepted : AcceptedRun db fresh)
    (split : covered ++ fresh = before ++ after) :
    ∃ last, before.foldlM replayRecord { db := db } =
        .ok ⟨(before.drop covered.length).foldl applyKeyed db, last⟩ ∧
      (covered.length ≤ before.length →
        Continues last ((before.drop covered.length).foldl applyKeyed db).sequence) := by
  rcases List.append_eq_append_iff.mp split with ⟨new, rfl, rfl⟩ | ⟨rest, rfl, -⟩
  · obtain ⟨last, skip, continues⟩ := @replay_covered_ok { db := db } covered first chain
      (.inl rfl) (frontier ▸ UInt64.le_refl _) old
    obtain ⟨final, apply, continues⟩ := @replay_tail_ok ⟨db, last⟩ new (frontier ▸ continues)
      ((acceptedRun_append _ _ _).mp accepted).1
    rw [List.drop_left]
    exact ⟨final, foldlM_append_ok.mpr ⟨_, skip, apply⟩, fun _ => continues⟩
  · obtain ⟨chain, later⟩ := (consecutive_append _ _ _).mp chain
    have low := le_endSequence later fun r hr => (old r (List.mem_append_right _ hr)).2
    rw [← endSequence_append, frontier] at low
    obtain ⟨last, skip, continues⟩ := @replay_covered_ok { db := db } before first chain
      (.inl rfl) low fun r hr => old r (List.mem_append_left _ hr)
    rw [List.drop_of_length_le (by simp)]
    refine ⟨last, skip, fun all => ?_⟩
    obtain rfl : rest = [] := by simpa using all
    rw [List.append_nil] at frontier
    exact frontier ▸ continues

/-- A log cut anywhere: the whole frames are applied, the rest is cut off, and the result opens
as it is. A frame that is appended then is recovered by the next opening. -/
theorem torn_tail_recovered (marker : d.format = some blank.format.contents)
    (loads : loadKeyedSnapshot blank d.snapshot = .ok db) {covered fresh : List KeyedWALRecord}
    {first : UInt64} (chain : Consecutive first (covered.map KeyedWALRecord.coerce))
    (frontier : endSequence first (covered.map KeyedWALRecord.coerce) = db.sequence)
    (old : ∀ r ∈ covered.map KeyedWALRecord.coerce, AcceptsRecord db r ∧ r.sequence ≠ 0)
    (accepted : AcceptedRun db (fresh.map KeyedWALRecord.coerce))
    (short : ∀ r ∈ covered ++ fresh, r.marshal.length ≤ maxKeyedFrameBytes) (n : Nat) :
    ∃ before after, covered ++ fresh = before ++ after ∧ (logOf before).length ≤ n ∧
      (∀ r rest, after = r :: rest → n < (logOf (before ++ [r])).length) ∧
      let t := ((before.drop covered.length).map KeyedWALRecord.coerce).foldl applyKeyed db
      let recovered := { d with wal := some (logOf before) }
      openStorage blank { d with wal := some ((logOf (covered ++ fresh)).take n) } =
          .ok (t, recovered) ∧
        openStorage blank recovered = .ok (t, recovered) ∧
        (covered.length ≤ before.length → ∀ r wal, AcceptedRun t [r.coerce] →
          appendKeyedFrame (logOf before) r none = (wal, none) →
          openStorage blank { d with wal := some wal } =
            .ok (applyKeyed t r.coerce, { d with wal := some wal })) := by
  obtain ⟨before, after, tail, split, cut, torn, most⟩ := take_logOf short n
  have part := congrArg (List.map KeyedWALRecord.coerce) split
  rw [List.map_append, List.map_append] at part
  obtain ⟨last, replay, continues⟩ := replay_leading chain frontier old accepted part
  rw [List.length_map, ← List.map_drop] at replay continues
  rw [List.length_map] at continues
  have few : ∀ r ∈ before, r.marshal.length ≤ maxKeyedFrameBytes := fun r hr =>
    short r (split ▸ List.mem_append_left _ hr)
  have length := congrArg List.length cut
  rw [List.length_take, List.length_append] at length
  refine ⟨before, after, split, by omega, most, ?_, ?_, fun all r wal next append => ?_⟩
  · rw [cut]
    exact openStorage_torn marker loads few replay torn
  · simpa using openStorage_torn marker loads few replay (.inl rfl)
  · obtain ⟨-, rfl, bound⟩ | ⟨failed, -⟩ := appendKeyedFrame_none append
    · obtain ⟨final, apply, -⟩ := @replay_tail_ok ⟨_, last⟩ _ (continues all) next
      have whole := foldlM_append_ok.mpr ⟨_, replay, apply⟩
      rw [← List.map_singleton, ← List.map_append] at whole
      have fits : ∀ r' ∈ before ++ [r], r'.marshal.length ≤ maxKeyedFrameBytes := by grind
      have opens := openStorage_torn marker loads fits whole (.inl rfl)
      simpa using opens
    · exact absurd rfl failed

end Torn

section OneCommand

def commandRequest (id : String) (program : KeyedProgram) : KeyedCommitRequest where
  commandID := ascii id
  mutation := some program.run

def storing : KeyedProgram :=
  .put (ascii "recordid") (.ok nullText) fun _ => .done (.returned (.ok nullText))

def dropping : KeyedProgram :=
  .delete (ascii "recordid") fun _ => .done (.returned (.ok nullText))

def storedGroup : List KeyedCommitRequest :=
  [commandRequest "a" storing, commandRequest "b" dropping]

def storedStore : Store := (Store.fresh smallBounds .keyed).commit storedGroup

theorem storing_recoverable : (Store.fresh smallBounds .keyed).RecoverableGroup storedGroup := by
  refine ⟨by decide +kernel, ?_⟩
  intro before request after split s _ callback made
  have only {write : Option Bytes} {key : Bytes} {value : Bytes}
      (get : ((∅ : Writes).insert (ascii "recordid") write)[key]? = some (some value)) :
      write = some value := by
    rw [ExtTreeMap.getElem?_insert] at get
    split at get
    · exact Option.some.inj get
    · simp at get
  rcases before with _ | ⟨first, _ | ⟨second, rest⟩⟩
  · cases split
    cases made
    refine ⟨.keyed rfl storing, ⟨by decide +kernel, ?_, by decide +kernel⟩, by decide⟩
    intro key value get
    cases only get
    decide +kernel
  · cases split
    cases made
    refine ⟨.keyed (by decide +kernel) dropping,
      ⟨by decide +kernel, ?_, by decide +kernel⟩, by decide +kernel⟩
    intro key value get
    cases only get
  · simp [storedGroup] at split

theorem storedStore_reachable :
    storedStore.Reachable smallOptions .keyed Store.RecoverableGroup :=
  ⟨_, rfl, .single (.commit _ _ storing_recoverable)⟩

/-- A put of twelve bytes is recovered behind its deletion, also if a snapshot stops half way. -/
theorem writer_recovery_agree_storing :
    (∃ record, executeKeyed (Store.fresh smallBounds .keyed).db (ascii "a") (some storing.run) =
        .decided record ∧
      validateKeyedRecord (Store.fresh smallBounds .keyed).db record = .ok ()) ∧
    ∃ db d, openKeyed smallOptions .keyed (storedStore.crash 3) = .ok (db, d) := by
  have decided : executeKeyed (Store.fresh smallBounds .keyed).db (ascii "a") (some storing.run) =
      .decided _ := rfl
  obtain ⟨api, recoverable, -⟩ := storing_recoverable.2 [] _ [_] rfl (by decide +kernel) _ rfl
  obtain ⟨agree, opens⟩ := writer_recovery_agree _ _ smallOptions .keyed storedStore
  exact ⟨⟨_, decided, ((agree api _ _ decided).mpr recoverable).1⟩,
    (opens storedStore_reachable).1 3⟩

/-- The records of a recoverable group pass the checks of recovery as they are read. -/
theorem Store.RecoverableGroup.accepted {st : Store} {requests : List KeyedCommitRequest}
    {rs : List KeyedWALRecord} (recoverable : st.RecoverableGroup requests)
    (wrote : (processCommitGroup {} st.db (st.dir.wal.getD []) requests).applied = rs) :
    AcceptedRun st.db (rs.map KeyedWALRecord.coerce) := by
  subst wrote
  rw [List.map_congr_left fun r hr => KeyedWALRecord.coerce_of_valid (recoverable.1 r hr),
    List.map_id']
  exact recoverable.2.accepted

/-- A log of two frames that is cut inside the second one. -/
theorem torn_tail_recovered_second : ∃ r q t,
    (processCommitGroup {} (Store.fresh smallBounds .keyed).db [] storedGroup).applied = [r, q] ∧
    openStorage (.blank smallBounds .keyed) { (Store.fresh smallBounds .keyed).dir with
        wal := some ((logOf [r, q]).take ((logOf [r]).length + 5)) } =
      .ok (t, { (Store.fresh smallBounds .keyed).dir with wal := some (logOf [r]) }) := by
  obtain ⟨r, q, two⟩ := List.length_eq_two.mp (by decide +kernel :
    (processCommitGroup {} (Store.fresh smallBounds .keyed).db [] storedGroup).applied.length = 2)
  have short : ∀ p ∈ [r, q], p.marshal.length ≤ maxKeyedFrameBytes :=
    two ▸ (processCommitGroup_staged _ _ storedGroup).2.2.2
  obtain ⟨before, after, split, low, most, opens, -⟩ :=
    @torn_tail_recovered (.blank smallBounds .keyed) (Store.fresh smallBounds .keyed).db
      (Store.fresh smallBounds .keyed).dir rfl rfl [] [r, q] 0 trivial rfl (by simp)
      (storing_recoverable.accepted two) short ((logOf [r]).length + 5)
  -- The cut lies behind the first frame and before the end of the second one.
  rcases before with _ | ⟨p, _ | ⟨p', rest⟩⟩
  · have behind := most r [q] split.symm
    rw [List.nil_append] at behind
    omega
  · obtain ⟨rfl, -⟩ := List.cons_eq_cons.mp split
    exact ⟨r, q, _, two, opens⟩
  · simp only [List.nil_append, List.cons_append, List.cons.injEq] at split
    obtain ⟨rfl, rfl, -⟩ := split
    simp only [logOf, List.map_cons, List.map_nil, Frame.log_cons, Frame.log_nil,
      List.length_append, Frame.length_frame, List.length_nil] at low
    omega

def tightOptions : KeyedOptions := ⟨4, 4, 5, 5⟩

def tightBounds : KeyedBounds where
  maxRecords := 4
  dedupeHorizon := 4
  maxValueBytes := 5
  maxTransactionBytes := 5
  records_pos := smallBounds.records_pos
  horizon_pos := smallBounds.horizon_pos
  value_pos := by decide
  value_le_transaction := by decide

def exceeded : Error := openError .capacity "WAL transaction exceeds configured bound"

set_option maxRecDepth 8000 in
/-- The writer accepts a deletion whose key alone is longer than a transaction may be. Its
record fails the check of recovery, and the store cannot be reopened. -/
theorem deletion_not_recovered :
    normalizeKeyedOptions tightOptions = .ok tightBounds ∧
    openKeyed tightOptions .keyed {} =
      .ok ((Store.fresh tightBounds .keyed).db, (Store.fresh tightBounds .keyed).dir) ∧
    (∃ record, executeKeyed (Store.fresh tightBounds .keyed).db (ascii "a") (some dropping.run) =
        .decided record ∧
      validateKeyedRecord (Store.fresh tightBounds .keyed).db record = .error exceeded) ∧
    (let outcome := processCommitGroup {} (Store.fresh tightBounds .keyed).db []
      [commandRequest "a" dropping]
    outcome.results.map (·.err) = [none] ∧ outcome.synced.length = 1) ∧
    openKeyed tightOptions .keyed
        ((Store.fresh tightBounds .keyed).commit [commandRequest "a" dropping]).dir =
      .error exceeded := by
  refine ⟨rfl, rfl, ⟨_, rfl, by decide +kernel⟩, by decide +kernel, ?_⟩
  have refused : (match openKeyed tightOptions .keyed
        ((Store.fresh tightBounds .keyed).commit [commandRequest "a" dropping]).dir with
      | .error err => some err
      | .ok _ => none) = some exceeded := by
    decide +kernel
  split at refused
  · rename_i err eq
    rw [eq, Option.some_inj.mp refused]
  · cases refused

end OneCommand

end OctetDB
