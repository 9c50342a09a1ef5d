import OctetDB.Keyed.Replay
import OctetDB.Keyed.Serial

/-!
# Recovery equals the live state

A run of a store is any sequence of commit groups, snapshots and reopenings, without storage
failures. The files always tell the live state: the snapshot is that of an earlier state of
the handle, and the log consists of records the snapshot covers followed by the records
decided since.
-/

namespace OctetDB

/-! ## Records decided one after the other -/

/-- The records were decided one after the other from the state: each under the next sequence
and an ID that was not retained. -/
def Extends : KeyedDB → List KeyedWALRecord → Prop
  | _, [] => True
  | db, r :: rs => r.sequence = db.sequence + 1 ∧ r.commandID ∉ db.dedupe ∧
      Extends (applyKeyed db r) rs

theorem extends_append (db : KeyedDB) (rs ts : List KeyedWALRecord) :
    Extends db (rs ++ ts) ↔ Extends db rs ∧ Extends (rs.foldl applyKeyed db) ts := by
  induction rs generalizing db with
  | nil => simp [Extends]
  | cons r rs ih => simp [Extends, ih, and_assoc]

variable {db : KeyedDB} {rs : List KeyedWALRecord} {d : Directory} {bounds : KeyedBounds}

theorem Extends.consecutive (h : Extends db rs) :
    Consecutive db.sequence rs := by
  induction rs generalizing db with
  | nil => trivial
  | cons r rs ih => exact ⟨h.1, ih h.2.2⟩

theorem sequence_foldl_applyKeyed (db : KeyedDB) (rs : List KeyedWALRecord) :
    (rs.foldl applyKeyed db).sequence = endSequence db.sequence rs := by
  induction rs generalizing db with
  | nil => rfl
  | cons r rs ih => simp [ih]

/-- A handle with the given options and format that is neither poisoned nor closed. -/
structure KeyedDB.Opened (options : KeyedBounds) (format : KeyedFormat) (db : KeyedDB) : Prop where
  options_eq : db.options = options
  format_eq : db.format = format
  live : db.poisoned = false
  unclosed : db.closed = false

theorem KeyedDB.Opened.foldl {options : KeyedBounds} {format : KeyedFormat}
    (h : db.Opened options format) (rs : List KeyedWALRecord) :
    (rs.foldl applyKeyed db).Opened options format := by
  induction rs generalizing db with
  | nil => exact h
  | cons r rs ih => exact @ih (applyKeyed db r) ⟨h.1, h.2, h.3, h.4⟩

/-- Decisions neither read nor change the poison flag. -/
theorem foldl_applyKeyed_poisoned (db : KeyedDB) (poisoned : Bool) (rs : List KeyedWALRecord) :
    rs.foldl applyKeyed { db with poisoned := poisoned } =
      { rs.foldl applyKeyed db with poisoned := poisoned } := by
  induction rs generalizing db with
  | nil => rfl
  | cons r rs ih => exact ih (applyKeyed db r)

theorem extends_poisoned {poisoned : Bool} :
    Extends { db with poisoned := poisoned } rs ↔ Extends db rs := by
  induction rs generalizing db with
  | nil => exact Iff.rfl
  | cons r rs ih => exact and_congr_right fun _ => and_congr_right fun _ => @ih (applyKeyed db r)

/-- A decision touches nothing but its own writes. -/
theorem mem_foldl_applyMutation {records : ByteMap Bytes} {ms : List KeyedMutation} {key : Bytes}
    (h : key ∈ ms.foldl applyMutation records) : key ∈ records ∨ ∃ m ∈ ms, m.key = key := by
  induction ms generalizing records with
  | nil => exact .inl h
  | cons m ms ih =>
    rcases ih h with old | ⟨n, mem, rfl⟩
    · unfold applyMutation at old
      split at old
      · exact .inl (Std.ExtTreeMap.mem_of_mem_erase old)
      · rcases Std.ExtTreeMap.mem_insert.mp old with same | old
        · exact .inr ⟨m, by simp, by simpa using same⟩
        · exact .inl old
    · exact .inr ⟨n, by simp [mem], rfl⟩

theorem Persistable.apply {db : KeyedDB} {r : KeyedWALRecord} (p : Persistable db)
    (valid : r.IdentifiersValid) (fresh : r.commandID ∉ db.dedupe) :
    Persistable (applyKeyed db r) where
  window := p.window.retain fresh db.options.horizon_pos
  retained := by
    intro id q hq
    obtain ⟨rfl, rfl⟩ | ⟨-, old⟩ := Window.getElem?_retain hq
    · exact ⟨rfl, rfl, valid.1, valid.2.1, by simp⟩
    · exact p.retained id q old
  keys := by
    intro key mem
    simp only [applyKeyed] at mem
    split at mem
    · rcases mem_foldl_applyMutation mem with old | ⟨m, hm, rfl⟩
      · exact p.keys key old
      · exact valid.2.2 m hm
    · exact p.keys key mem

theorem Persistable.extend (p : Persistable db) (h : Extends db rs)
    (valid : ∀ r ∈ rs, r.IdentifiersValid) :
    Persistable (rs.foldl applyKeyed db) := by
  induction rs generalizing db with
  | nil => exact p
  | cons r rs ih =>
    exact ih (p.apply (valid r (by simp)) h.2.1) h.2.2 fun q hq => valid q (by simp [hq])

/-! ## What a group adds to the log -/

/-- The loop over a group on sound storage: the state has the appended records applied, and
the log has their frames. -/
structure Staged (db : KeyedDB) (wal : Bytes) (s : GroupState) : Prop where
  state : s.db = { s.applied.foldl applyKeyed db with poisoned := s.db.poisoned }
  log : s.wal = wal ++ logOf s.applied
  extend : Extends db s.applied
  length_le : ∀ r ∈ s.applied, r.marshal.length ≤ maxKeyedFrameBytes

theorem Staged.start (db : KeyedDB) (wal : Bytes) (size : Nat) :
    Staged db wal (.start db wal size) :=
  ⟨rfl, by simp [GroupState.start], trivial, by simp [GroupState.start]⟩

theorem appendKeyedFrame_none {wal wal' : Bytes} {r : KeyedWALRecord} {err : Option Error}
    (h : appendKeyedFrame wal r none = (wal', err)) :
    (err = none ∧ wal' = wal ++ Frame.frame r.marshal ∧
      r.marshal.length ≤ maxKeyedFrameBytes) ∨ (err ≠ none ∧ wal' = wal) := by
  simp only [appendKeyedFrame] at h
  split at h
  · cases h; exact .inr ⟨by simp, rfl⟩
  · cases h; exact .inl ⟨rfl, rfl, by omega⟩

theorem Staged.step {db : KeyedDB} {wal : Bytes} {s : GroupState} (h : Staged db wal s)
    (request : KeyedCommitRequest) : Staged db wal (groupStep {} s request) := by
  have effect := groupStep_spec {} s request
  generalize groupStep {} s request = t at effect ⊢
  cases effect with
  | failed live run append =>
    obtain ⟨none, -⟩ | ⟨-, same⟩ := appendKeyedFrame_none append
    · cases none
    · refine ⟨?_, ?_, h.extend, h.length_le⟩
      · simp only [GroupState.answer, GroupState.fail, KeyedDB.poison]
        rw [h.state]
      · simp only [GroupState.answer, GroupState.fail]
        rw [same, h.log]
  | @accepted record wal' live run append =>
    obtain ⟨-, appended, bound⟩ | ⟨failed, -⟩ := appendKeyedFrame_none append
    · obtain ⟨-, -, absent, callback, -, decided⟩ := executeKeyed_eq_decided run
      obtain ⟨same, next⟩ := decideKeyed_identity decided
      refine ⟨?_, ?_, ?_, ?_⟩
      · simp only [GroupState.answer, GroupState.accept, List.foldl_append, List.foldl_cons,
          List.foldl_nil]
        rw [h.state]
        rfl
      · simp only [GroupState.answer, GroupState.accept, logOf_append, logOf_singleton]
        rw [appended, h.log, List.append_assoc]
      · refine (extends_append _ _ _).mpr ⟨h.extend, ?_, ?_, trivial⟩
        · rw [next, h.state]
        · rw [same]
          rw [h.state] at absent
          rw [Std.ExtTreeMap.mem_iff_isSome_getElem?]
          simp_all
      · intro r hr
        rcases List.mem_append.mp hr with hr | hr
        · exact h.length_le r hr
        · obtain rfl := List.mem_singleton.mp hr
          exact bound
    · exact absurd rfl failed
  | _ => exact ⟨h.state, h.log, h.extend, h.length_le⟩

theorem Staged.run {wal : Bytes} {s : GroupState} (h : Staged db wal s)
    (requests : List KeyedCommitRequest) : Staged db wal (requests.foldl (groupStep {}) s) := by
  induction requests generalizing s with
  | nil => exact h
  | cons request requests ih => exact ih (h.step request)

theorem processCommitGroup_staged (db : KeyedDB) (wal : Bytes)
    (requests : List KeyedCommitRequest) :
    let outcome := processCommitGroup {} db wal requests
    outcome.db = { outcome.applied.foldl applyKeyed db with poisoned := outcome.db.poisoned } ∧
      outcome.wal = wal ++ logOf outcome.applied ∧ Extends db outcome.applied ∧
      ∀ r ∈ outcome.applied, r.marshal.length ≤ maxKeyedFrameBytes := by
  have final := (Staged.start db wal requests.length).run requests
  simp only [processCommitGroup, GroupState.finish, Option.map_none]
  split
  · refine ⟨?_, final.log, final.extend, final.length_le⟩
    simp only [KeyedDB.poison]
    rw [final.state]
  · exact ⟨final.state, final.log, final.extend, final.length_le⟩

/-! ## Runs -/

/-- An open handle and the directory it works on. -/
structure Store where
  db : KeyedDB
  dir : Directory

/-- A commit group on sound storage. -/
def Store.commit (st : Store) (requests : List KeyedCommitRequest) : Store :=
  let outcome := processCommitGroup {} st.db (st.dir.wal.getD []) requests
  ⟨outcome.db, { st.dir with wal := some outcome.wal }⟩

/-- A crash after the first `n` operations of a snapshot; none was begun if `n` is zero. -/
def Store.crash (st : Store) (n : Nat) : Directory := snapshotAfter st.db st.dir n

/-- A crash while a group is written: the log ends after the first `n` bytes of its frames. -/
def Store.tear (st : Store) (requests : List KeyedCommitRequest) (n : Nat) : Directory :=
  let outcome := processCommitGroup {} st.db (st.dir.wal.getD []) requests
  { st.dir with wal := some (outcome.wal.take ((st.dir.wal.getD []).length + n)) }

/-- All identifiers the group writes to the log are valid UTF-8. -/
def Store.ValidGroup (st : Store) (requests : List KeyedCommitRequest) : Prop :=
  ∀ r ∈ (processCommitGroup {} st.db (st.dir.wal.getD []) requests).applied, r.IdentifiersValid

instance (st : Store) (requests : List KeyedCommitRequest) : Decidable (st.ValidGroup requests) :=
  inferInstanceAs (Decidable (∀ r ∈ _, KeyedWALRecord.IdentifiersValid r))

/-- The steps of a run: a commit group that is allowed in the state, a snapshot, and a crash at
any point of either followed by a reopening. -/
inductive Store.Step (options : KeyedOptions) (format : KeyedFormat)
    (allowed : Store → List KeyedCommitRequest → Prop) : Store → Store → Prop where
  | commit (st : Store) (requests : List KeyedCommitRequest) (allow : allowed st requests) :
      Step options format allowed st (st.commit requests)
  | snapshot (st : Store) (live : st.db.poisoned = false) :
      Step options format allowed st ⟨st.db, (snapshotKeyed st.db st.dir none).1⟩
  | reopen (st : Store) (n : Nat) {db : KeyedDB} {dir : Directory}
      (accepted : openKeyed options format (st.crash n) = .ok (db, dir)) :
      Step options format allowed st ⟨db, dir⟩
  | torn (st : Store) (requests : List KeyedCommitRequest) (allow : allowed st requests) (n : Nat)
      {db : KeyedDB} {dir : Directory}
      (accepted : openKeyed options format (st.tear requests n) = .ok (db, dir)) :
      Step options format allowed st ⟨db, dir⟩

/-- The states of the runs that start by opening an empty directory. -/
def Store.Reachable (options : KeyedOptions) (format : KeyedFormat)
    (allowed : Store → List KeyedCommitRequest → Prop) (st : Store) : Prop :=
  ∃ start : Store, openKeyed options format {} = .ok (start.db, start.dir) ∧
    Relation.ReflTransGen (Store.Step options format allowed) start st

/-! ## The files tell the live state -/

/-- The directory of a store: a snapshot of the state `base`, if there is one, and a log of
the records `covered` by it and the records of the `tail` that lead from it to the live
state. -/
structure Image (options : KeyedBounds) (format : KeyedFormat) (st : Store) (base : KeyedDB)
    (covered tail : List KeyedWALRecord) (first : UInt64) : Prop where
  opened : base.Opened options format
  persistable : Persistable base
  marker : st.dir.format = some format.contents
  snapshot : (st.dir.snapshot = none ∧ base = .blank options format) ∨
    st.dir.snapshot = some base.snapshotFile
  wal : st.dir.wal.getD [] = logOf (covered ++ tail)
  chain : Consecutive first covered
  frontier : endSequence first covered = base.sequence
  extend : Extends base tail
  loggable : ∀ r ∈ covered ++ tail, Loggable r
  state : st.db = { tail.foldl applyKeyed base with poisoned := st.db.poisoned }

def Logged (options : KeyedBounds) (format : KeyedFormat) (st : Store) : Prop :=
  ∃ base covered tail first, Image options format st base covered tail first

section Open

variable {options : KeyedBounds} {format : KeyedFormat} {st : Store} {base : KeyedDB}
  {covered tail : List KeyedWALRecord} {first : UInt64}

theorem ensureKeyedFormat_marked {contents : Bytes} (marker : d.format = some contents) :
    ensureKeyedFormat d contents = .ok d := by
  simp [ensureKeyedFormat, marker]

/-- Opening a marked directory: the snapshot, then the log. -/
theorem openStorage_marked {db : KeyedDB} {d : Directory}
    (marker : d.format = some db.format.contents) :
    openStorage db d = match loadKeyedSnapshot db d.snapshot with
      | .error err => .error err
      | .ok loaded => (replayKeyedWAL loaded (d.wal.getD [])).map fun r =>
          (r.1, { d with wal := some r.2 }) := by
  simp only [openStorage, ensureKeyedFormat_marked marker, bind, Except.bind]
  cases loadKeyedSnapshot db d.snapshot with
  | error err => rfl
  | ok loaded => cases replayKeyedWAL loaded (d.wal.getD []) <;> rfl

theorem Image.loaded (image : Image options format st base covered tail first)
    (h : loadKeyedSnapshot (.blank options format) st.dir.snapshot = .ok db) : db = base := by
  obtain ⟨none, blank⟩ | file := image.snapshot
  · rw [none] at h
    rw [blank]
    exact (Except.ok.inj h).symm
  · obtain ⟨rfl, rfl, live, unclosed⟩ := image.opened
    rw [file] at h
    rw [image.persistable.load_ok h]
    cases base
    cases live
    cases unclosed
    rfl

/-- If the directory is accepted, opening it restores the live state and leaves the files as
they are. -/
theorem Image.openStorage_ok (image : Image options format st base covered tail first)
    (h : openStorage (.blank options format) st.dir = .ok (db, d)) :
    db = tail.foldl applyKeyed base ∧
      d = { st.dir with wal := some (logOf (covered ++ tail)) } := by
  rw [openStorage_marked image.marker] at h
  split at h
  · cases h
  rename_i loaded load
  obtain rfl := image.loaded load
  rw [image.wal, replayKeyedWAL_logOf image.loggable] at h
  cases replay : (covered ++ tail).foldlM replayRecord { db := loaded } with
  | error err => rw [replay] at h; cases h
  | ok t =>
    rw [replay] at h
    obtain ⟨rfl, rfl⟩ := Prod.mk.inj (Except.ok.inj h)
    obtain ⟨u, skip, apply⟩ := foldlM_append_ok.mp replay
    have skipped : u.db = loaded := replay_covered image.chain image.frontier skip
    refine ⟨?_, rfl⟩
    change t.db = _
    rw [replay_tail (by rw [skipped]; exact image.extend.consecutive) apply, skipped]

theorem openKeyed_ok {options : KeyedOptions}
    (normal : normalizeKeyedOptions options = .ok bounds) :
    openKeyed options format d = openStorage (.blank bounds format) d := by
  simp only [openKeyed, normal]
  rfl

/-! ## Every step keeps the files in step with the state -/

/-- The first operations of a snapshot change the temporary file only, the next ones also
install the snapshot, and the last ones also empty the log. -/
theorem snapshotAfter_cases (db : KeyedDB) (d : Directory) (n : Nat) : ∃ tmp,
    snapshotAfter db d n = { d with snapshotTmp := tmp } ∨
    snapshotAfter db d n = { d with snapshot := some db.snapshotFile, snapshotTmp := tmp } ∨
    snapshotAfter db d n =
      { d with snapshot := some db.snapshotFile, snapshotTmp := tmp, wal := some [] } := by
  match n with
  | 0 => exact ⟨_, .inl rfl⟩
  | 1 => exact ⟨_, .inl rfl⟩
  | 2 => exact ⟨_, .inl rfl⟩
  | 3 => exact ⟨_, .inl rfl⟩
  | 4 => exact ⟨_, .inl rfl⟩
  | 5 => exact ⟨_, .inl rfl⟩
  | 6 => exact ⟨_, .inr (.inl rfl)⟩
  | 7 => exact ⟨_, .inr (.inl rfl)⟩
  | 8 => exact ⟨_, .inr (.inr rfl)⟩
  | 9 => exact ⟨_, .inr (.inr rfl)⟩
  | n + 10 =>
    rw [snapshotAfter, List.take_of_length_le (by simp [snapshotOps])]
    exact ⟨_, .inr (.inr rfl)⟩

theorem Image.persistable_tail (image : Image options format st base covered tail first) :
    Persistable (tail.foldl applyKeyed base) :=
  image.persistable.extend image.extend fun r hr =>
    (image.loggable r (List.mem_append_right _ hr)).valid

/-- Wherever a snapshot stops, the files tell the same state: from the old snapshot, from the
new one with the log it covers, or from the new one alone. -/
theorem Image.crash (image : Image options format st base covered tail first) (n : Nat) :
    let live := tail.foldl applyKeyed base
    Image options format ⟨st.db, st.crash n⟩ base covered tail first ∨
      Image options format ⟨st.db, st.crash n⟩ live (covered ++ tail) [] first ∨
      Image options format ⟨st.db, st.crash n⟩ live [] [] live.sequence := by
  have state := image.state
  have same : (tail.foldl applyKeyed base).snapshotFile = st.db.snapshotFile := by
    rw [state]; rfl
  obtain ⟨tmp, eq | eq | eq⟩ := snapshotAfter_cases st.db st.dir n
  · refine .inl { image with marker := ?_, snapshot := ?_, wal := ?_ } <;>
      simp only [Store.crash, eq]
    · exact image.marker
    · exact image.snapshot
    · exact image.wal
  · refine .inr (.inl ⟨image.opened.foldl tail, image.persistable_tail, ?_, ?_, ?_, ?_, ?_,
      trivial, ?_, state⟩)
    · simpa only [Store.crash, eq] using image.marker
    · simp only [Store.crash, eq, same, or_true]
    · simpa only [Store.crash, eq, List.append_nil] using image.wal
    · exact (consecutive_append _ _ _).mpr
        ⟨image.chain, image.frontier ▸ image.extend.consecutive⟩
    · rw [endSequence_append, image.frontier, sequence_foldl_applyKeyed]
    · simpa only [List.append_nil] using image.loggable
  · refine .inr (.inr ⟨image.opened.foldl tail, image.persistable_tail, ?_, ?_, ?_, trivial, rfl,
      trivial, by simp, state⟩)
    · simpa only [Store.crash, eq] using image.marker
    · simp only [Store.crash, eq, same, or_true]
    · simp only [Store.crash, eq, List.append_nil, logOf_nil, Option.getD_some]

theorem Image.commit (image : Image options format st base covered tail first)
    {requests : List KeyedCommitRequest} (valid : st.ValidGroup requests) :
    Image options format (st.commit requests) base covered
      (tail ++ (processCommitGroup {} st.db (st.dir.wal.getD []) requests).applied) first := by
  obtain ⟨state, wal, extend, bound⟩ :=
    processCommitGroup_staged st.db (st.dir.wal.getD []) requests
  rw [Store.ValidGroup] at valid
  rw [Store.commit]
  generalize processCommitGroup {} st.db (st.dir.wal.getD []) requests = outcome at *
  have old := image.state
  rw [old, foldl_applyKeyed_poisoned, ← List.foldl_append] at state
  rw [old, extends_poisoned] at extend
  refine { image with
    marker := image.marker, snapshot := image.snapshot, wal := ?_, extend := ?_,
    loggable := ?_, state := ?_ }
  · rw [← List.append_assoc, logOf_append, ← image.wal]
    exact wal
  · exact (extends_append _ _ _).mpr ⟨image.extend, extend⟩
  · intro r hr
    rw [← List.append_assoc] at hr
    rcases List.mem_append.mp hr with hr | hr
    · exact image.loggable r hr
    · exact ⟨valid r hr, bound r hr⟩
  · exact state

/-- A directory with a torn log opens as the one without the torn tail. -/
theorem Image.openStorage_torn (image : Image options format st base covered tail first)
    {torn : Bytes} (h : Frame.Torn 1 maxKeyedFrameBytes torn) :
    openStorage (.blank options format)
        { st.dir with wal := some (logOf (covered ++ tail) ++ torn) } =
      openStorage (.blank options format) st.dir := by
  rw [openStorage_marked image.marker, openStorage_marked image.marker]
  cases loadKeyedSnapshot (.blank options format) st.dir.snapshot with
  | error err => rfl
  | ok db =>
    simp only [Option.getD_some, image.wal]
    rw [replayKeyedWAL_torn image.loggable h, replayKeyedWAL_logOf image.loggable]

/-- A log torn inside a group tells the state after the first decisions of the group. -/
theorem Image.tear (image : Image options format st base covered tail first)
    {requests : List KeyedCommitRequest} (valid : st.ValidGroup requests) (n : Nat) :
    ∃ before after cut,
      (processCommitGroup {} st.db (st.dir.wal.getD []) requests).applied = before ++ after ∧
      Image options format cut base covered (tail ++ before) first ∧
      openStorage (.blank options format) (st.tear requests n) =
        openStorage (.blank options format) cut.dir := by
  have whole := image.commit valid
  obtain ⟨-, wal, -, -⟩ := processCommitGroup_staged st.db (st.dir.wal.getD []) requests
  rw [Store.tear]
  rw [Store.commit] at whole
  generalize processCommitGroup {} st.db (st.dir.wal.getD []) requests = outcome at *
  have loggable : ∀ r ∈ outcome.applied, Loggable r := fun r hr =>
    whole.loggable r (by simp [hr])
  obtain ⟨before, after, torn, split, cut, stops, -⟩ :=
    take_logOf (fun r hr => (loggable r hr).length_le) n
  have extend := whole.extend
  rw [split, ← List.append_assoc, extends_append] at extend
  have files : Image options format
      ⟨(tail ++ before).foldl applyKeyed base,
        { st.dir with wal := some (logOf (covered ++ (tail ++ before))) }⟩
      base covered (tail ++ before) first :=
    { image with
      marker := image.marker, snapshot := image.snapshot, wal := rfl, extend := extend.1
      loggable := fun r hr => whole.loggable r (by
        rw [split]
        simp only [List.mem_append] at hr ⊢
        tauto)
      state := rfl }
  refine ⟨before, after, _, split, files, ?_⟩
  rw [← files.openStorage_torn stops]
  simp only
  rw [wal, List.take_length_add_append, cut, image.wal, ← List.append_assoc, ← logOf_append,
    List.append_assoc]

theorem Image.reopen (image : Image options format st base covered tail first)
    (accepted : openStorage (.blank options format) st.dir = .ok (db, d)) :
    Image options format ⟨db, d⟩ base covered tail first := by
  obtain ⟨rfl, rfl⟩ := image.openStorage_ok accepted
  exact { image with
    marker := image.marker, snapshot := image.snapshot, wal := rfl, state := rfl }

theorem Logged.crash (h : Logged options format st) (n : Nat) :
    Logged options format ⟨st.db, st.crash n⟩ := by
  obtain ⟨base, covered, tail, first, image⟩ := h
  rcases image.crash n with image | image | image <;> exact ⟨_, _, _, _, image⟩

end Open

/-- The store right after an empty directory was opened. -/
def Store.fresh (options : KeyedBounds) (format : KeyedFormat) : Store :=
  ⟨.blank options format, { format := some format.contents, wal := some [] }⟩

theorem image_fresh (options : KeyedBounds) (format : KeyedFormat) :
    Image options format (.fresh options format) (.blank options format) [] [] 0 :=
  ⟨⟨rfl, rfl, rfl, rfl⟩, .blank _ _, rfl, .inl ⟨rfl, rfl⟩, rfl, trivial, rfl, trivial, by simp, rfl⟩

theorem openKeyed_empty {options : KeyedOptions} {format : KeyedFormat}
    (normal : normalizeKeyedOptions options = .ok bounds) :
    openKeyed options format {} =
      .ok ((Store.fresh bounds format).db, (Store.fresh bounds format).dir) := by
  rw [openKeyed_ok normal]
  rfl

/-- In every reachable state the files tell the live state. -/
theorem Store.Reachable.logged {options : KeyedOptions} {format : KeyedFormat} {st : Store}
    (normal : normalizeKeyedOptions options = .ok bounds)
    (reachable : st.Reachable options format Store.ValidGroup) : Logged bounds format st := by
  obtain ⟨⟨db, dir⟩, opened, run⟩ := reachable
  rw [openKeyed_empty normal] at opened
  cases opened
  induction run with
  | refl => exact ⟨_, _, _, _, image_fresh bounds format⟩
  | tail _ step ih =>
    cases step with
    | commit requests valid =>
      obtain ⟨base, covered, tail, first, image⟩ := ih
      exact ⟨_, _, _, _, image.commit valid⟩
    | snapshot live => exact ih.crash snapshotOps.length
    | reopen n accepted =>
      rw [openKeyed_ok normal] at accepted
      obtain ⟨base, covered, tail, first, image⟩ := ih.crash n
      exact ⟨_, _, _, _, image.reopen accepted⟩
    | torn requests valid n accepted =>
      obtain ⟨base, covered, tail, first, image⟩ := ih
      obtain ⟨before, after, cut, -, files, same⟩ := image.tear valid n
      rw [openKeyed_ok normal, same] at accepted
      exact ⟨_, _, _, _, files.reopen accepted⟩

/-- Whatever run led to a state and wherever its last snapshot stopped, a handle reopened with
the same options has the records, the sequence and the window of the live one. -/
theorem recovered_eq_live {options : KeyedOptions} {format : KeyedFormat} {st : Store}
    (reachable : st.Reachable options format Store.ValidGroup) (n : Nat) {db : KeyedDB}
    {d : Directory}
    (accepted : openKeyed options format (st.crash n) = .ok (db, d)) :
    db.records = st.db.records ∧ db.sequence = st.db.sequence ∧ db.dedupe = st.db.dedupe ∧
      db.dedupeIDs = st.db.dedupeIDs := by
  cases normal : normalizeKeyedOptions options with
  | error err => simp [openKeyed, normal, bind, Except.bind] at accepted
  | ok bounds =>
    obtain ⟨base, covered, tail, first, image⟩ := (reachable.logged normal).crash n
    rw [openKeyed_ok normal] at accepted
    obtain ⟨rfl, -⟩ := image.openStorage_ok accepted
    have state := image.state
    simp only at state
    rw [state]
    exact ⟨rfl, rfl, rfl, rfl⟩

section OneDecision

def smallOptions : KeyedOptions := ⟨4, 4, 16, 64⟩

def decidedStore : Store := (Store.fresh smallBounds .keyed).commit [accepting "a"]

theorem decidedStore_reachable : decidedStore.Reachable smallOptions .keyed Store.ValidGroup :=
  ⟨_, rfl, .single (.commit _ _ (by decide +kernel))⟩

set_option maxRecDepth 4000 in
/-- The snapshot has replaced the old one and the log is not yet emptied. -/
theorem recovered_eq_live_decidedStore :
    ∃ db d, openKeyed smallOptions .keyed (decidedStore.crash 6) = .ok (db, d) ∧
      db.dedupeIDs = [ascii "a"] ∧ db.sequence = 1 := by
  have accepted : (openKeyed smallOptions .keyed (decidedStore.crash 6)).isOk = true := by
    decide +kernel
  cases h : openKeyed smallOptions .keyed (decidedStore.crash 6) with
  | error err => simp [h, Except.isOk, Except.toBool] at accepted
  | ok r =>
    obtain ⟨-, sequence, -, order⟩ := recovered_eq_live decidedStore_reachable 6 h
    exact ⟨r.1, r.2, rfl, order.trans (by decide +kernel), sequence.trans (by decide +kernel)⟩

end OneDecision

end OctetDB
