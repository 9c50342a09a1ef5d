import OctetDB.Catalog.Codec
import OctetDB.Catalog.Cursor
import OctetDB.Catalog.Given
import OctetDB.Keyed.Reopen

/-!
# Bounds and ownership in a database

Callers have the handles that calls gave them, and no others. In every state of a database its
topology is proper, every record belongs to a catalogued dataset, and values and counts are
within the bounds of the datasets and of the database; so recovery would accept the state. This
rests on the checks of `Put`, of the record counts behind a callback and of `finalize`, and on
the identities that new datasets get, which must not wrap around.
-/

namespace OctetDB

open Std

/-! ## The counts of a transaction -/

section Counts

/-- The loop of the record counts over the committed records. -/
def countCommitted (counts : WordMap Int) (key : Bytes) : WordMap Int :=
  match backendDatasetID key with
  | some id => bump counts id 1
  | none => counts

/-- The loop of the record counts over the writes. -/
def countStaged (records : ByteMap Bytes) (counts : WordMap Int) (write : Bytes × Option Bytes) :
    WordMap Int :=
  match backendDatasetID write.1 with
  | none => counts
  | some id =>
    if write.2 = none ∧ write.1 ∈ records then bump counts id (-1)
    else if write.2 ≠ none ∧ write.1 ∉ records then bump counts id 1
    else counts

theorem Tx.counts_eq (tx : Tx) : tx.counts = tx.writes.toList.foldl
    (countStaged tx.db.keyed.records) (tx.db.keyed.records.keys.foldl countCommitted ∅) := rfl

theorem getD_bump (counts : WordMap Int) (id id' : UInt64) (delta : Int) :
    (bump counts id delta).getD id' 0 = counts.getD id' 0 + if id = id' then delta else 0 := by
  rw [bump, ExtTreeMap.getD_insert]
  by_cases same : id = id' <;> simp [same]

theorem getD_foldl_countCommitted (keys : List Bytes) (counts : WordMap Int) (id : UInt64) :
    (keys.foldl countCommitted counts).getD id 0 =
      counts.getD id 0 + keys.countP fun key => backendDatasetID key == some id := by
  induction keys generalizing counts with
  | nil => simp
  | cons key keys ih =>
    rw [List.foldl_cons, ih, List.countP_cons, countCommitted]
    cases named : backendDatasetID key with
    | none => simp
    | some other =>
      simp only [getD_bump]
      by_cases same : other = id
      · simp only [same, if_true, beq_self_eq_true]
        omega
      · simp [same]

/-- What a write adds to the count of its dataset. -/
theorem getD_countStaged (records : ByteMap Bytes) (counts : WordMap Int)
    (write : Bytes × Option Bytes) (id : UInt64) :
    (countStaged records counts write).getD id 0 = counts.getD id 0 +
      if backendDatasetID write.1 = some id then countWrite records 0 (writeMutation write)
      else 0 := by
  obtain ⟨key, value⟩ := write
  unfold countStaged
  cases named : backendDatasetID key with
  | none => simp
  | some other =>
    by_cases present : key ∈ records <;> cases value <;>
      simp [present, getD_bump, countWrite, writeMutation]

theorem recordCount_applyMutation (records : ByteMap Bytes) (m : KeyedMutation) (id : UInt64) :
    (recordCount (applyMutation records m) id : Int) = recordCount records id +
      if backendDatasetID m.key = some id then countWrite records 0 m else 0 := by
  unfold applyMutation countWrite recordCount
  cases m.delete with
  | true =>
    have erased := @countKeys_erase _ _ _ _ _ records (fun k => backendDatasetID k == some id) m.key
    by_cases present : m.key ∈ records <;> by_cases named : backendDatasetID m.key = some id <;>
      simp [present, named] at erased ⊢ <;> omega
  | false =>
    have inserted := @countKeys_insert _ _ _ _ _ records (fun k => backendDatasetID k == some id)
      m.key m.value
    by_cases present : m.key ∈ records <;> by_cases named : backendDatasetID m.key = some id <;>
      simp [present, named] at inserted ⊢ <;> omega

/-- The loop over the writes follows the records. -/
theorem getD_foldl_countStaged {records old : ByteMap Bytes} {writes : List (Bytes × Option Bytes)}
    (distinct : (writes.map (·.1)).Nodup) (same : ∀ w ∈ writes, w.1 ∈ records ↔ w.1 ∈ old)
    {counts : WordMap Int} {id : UInt64} (counted : counts.getD id 0 = recordCount records id) :
    (writes.foldl (countStaged old) counts).getD id 0 =
      recordCount ((writes.map writeMutation).foldl applyMutation records) id := by
  induction writes generalizing records counts with
  | nil => exact counted
  | cons write writes ih =>
    obtain ⟨here, later⟩ := List.forall_mem_cons.mp same
    rw [List.map_cons, List.nodup_cons] at distinct
    rw [List.map_cons, List.foldl_cons, List.foldl_cons]
    refine ih distinct.2 (fun w mem => ?_) ?_
    · have other : write.1 ≠ w.1 := fun eq => distinct.1 (List.mem_map.mpr ⟨w, mem, eq.symm⟩)
      rw [← later w mem, applyMutation, key_writeMutation]
      split <;> simp [other]
    · rw [getD_countStaged, recordCount_applyMutation, counted, key_writeMutation]
      simp [countWrite, key_writeMutation, here]

/-- The counts that a callback is checked with are those of the records behind it. -/
theorem Tx.getD_counts (tx : Tx) (id : UInt64) : tx.counts.getD id 0 =
    recordCount
      ((tx.writes.toList.map writeMutation).foldl applyMutation tx.db.keyed.records) id := by
  rw [tx.counts_eq]
  refine getD_foldl_countStaged ?_ (fun _ _ => Iff.rfl) ?_
  · rw [ExtTreeMap.map_fst_toList_eq_keys]
    exact ExtTreeMap.nodup_keys
  · rw [getD_foldl_countCommitted]
    simp [recordCount, countKeys]

end Counts

/-! ## One decision -/

theorem validateDatasetBounds_ok {tx : Tx} (h : tx.validateDatasetBounds = .ok ())
    {bucket name : Bytes} {info : DatasetInfo}
    (listed : tx.db.catalog.dataset? bucket name = some info) :
    tx.counts.getD info.id 0 ≤ info.bounds.maxRecords := by
  simp only [Tx.validateDatasetBounds] at h
  split at h
  · cases h
  rename_i within
  have mem : info ∈ tx.db.catalog.buckets.values.flatMap fun bucket => bucket.values := by
    have listed := (tx.db.catalog.mem_bucketInfos info).mpr ⟨bucket, name, listed⟩
    simpa only [bucketInfos, values_eq_map_toList, List.flatMap_map] using listed
  simp only [List.any_eq_true, decide_eq_true_eq, not_exists, not_and] at within
  have := within info mem
  omega

/-- A callback that returned has passed the check of the bounds. -/
theorem Database.mutation_returned {db : Database} {program : TxProgram} {tx : KeyedTx}
    {result : Except String JsonText} (h : (db.mutation program tx).outcome = .returned result) :
    Tx.validateDatasetBounds
      ⟨{ db with keyed := tx.db }, (db.mutation program tx).writes⟩ = .ok () := by
  rw [db.writes_mutation]
  simp only [Database.mutation] at h
  split at h
  · split at h
    · cases h
    · assumption
  · rename_i other
    exact absurd h (other result)

/-- The handles that the callback may use on the database refer to its topology. -/
def TxProgram.Knows (db : Database) (program : TxProgram) : Prop :=
  program.Uses fun dataset => dataset.db = db.handle →
    ∃ bucket name, db.catalog.dataset? bucket name = some dataset.info

section Decision

variable {db : Database} {keyed : KeyedDB} {program : TxProgram} {id : Bytes}
  {record : KeyedWALRecord}

/-- What a decision does to the records: nothing, or the writes of a callback that returned. -/
theorem records_decided
    (decided : executeKeyed keyed id (some (db.mutation program)) = .decided record) :
    (applyKeyed keyed record).records = keyed.records ∨
    ∃ result, (db.mutation program { db := keyed }).outcome = .returned result ∧
      finalize keyed (db.mutation program { db := keyed }).writes = .ok record.mutations ∧
      (applyKeyed keyed record).records = record.mutations.foldl applyMutation keyed.records := by
  obtain ⟨-, -, -, callback, eq, decided⟩ := executeKeyed_eq_decided decided
  obtain rfl := Option.some_inj.mp eq
  obtain ⟨code, result, -, -, -, -, rfl⟩ | ⟨encoded, mutations, outcome, -, final, rfl⟩ :=
    decideKeyed_eq_decided decided
  · exact .inl rfl
  · exact .inr ⟨_, outcome, final, rfl⟩

/-- The records stay those of the topology. -/
theorem CatalogState.Owns.decided (owns : db.catalog.Owns keyed.records)
    (known : program.Knows db)
    (decided : executeKeyed keyed id (some (db.mutation program)) = .decided record) :
    db.catalog.Owns (applyKeyed keyed record).records := by
  obtain same | ⟨result, returned, final, records⟩ := records_decided decided
  · rwa [same]
  obtain ⟨writes, -⟩ := finalize_ok final
  rw [records, writes]
  constructor
  · intro key value get
    rcases getElem?_foldl_applyMutation get with old | ⟨m, mem, put, rfl, rfl⟩
    · exact owns.record key value old
    obtain ⟨⟨key, value⟩, listed, rfl⟩ := List.mem_map.mp mem
    have get := ExtTreeMap.mem_toList_iff_getElem?_eq_some.mp listed
    rw [db.writes_mutation] at get
    cases value with
    | none => simp [writeMutation] at put
    | some value =>
      refine TxProgram.forall_writes (W := fun key value => ∀ v, value = some v →
          ∃ bucket name info, db.catalog.dataset? bucket name = some info ∧
            backendDatasetID key = some info.id ∧ (v.length : Int) ≤ info.bounds.maxValueBytes)
        known.touches (fun dataset key value known wrote v eq => ?_) (by simp) key _ get value rfl
      obtain ⟨bucket, name, listed⟩ := known wrote.own
      exact ⟨bucket, name, dataset.info, listed, backendDatasetID_backendRecordKey _ _,
        wrote.small v eq⟩
  · intro bucket name info listed
    have bound := validateDatasetBounds_ok (Database.mutation_returned returned) listed
    rwa [Tx.getD_counts] at bound

theorem size_decided (total : keyed.records.size ≤ keyed.options.maxRecords)
    (decided : executeKeyed keyed id (some (db.mutation program)) = .decided record) :
    (applyKeyed keyed record).records.size ≤ keyed.options.maxRecords := by
  obtain same | ⟨result, returned, final, records⟩ := records_decided decided
  · rwa [same]
  obtain ⟨writes, count⟩ := finalize_ok final
  have distinct := nodup_keys_writeMutation (db.mutation program { db := keyed }).writes
  rw [← writes] at distinct
  rw [← size_foldl_applyMutation distinct fun _ _ => Iff.rfl] at count
  rw [records]
  omega

end Decision

/-! ## Structural changes -/

theorem normalizeDatasetOptions_ok {options normalized : DatasetOptions} {bounds : KeyedBounds}
    (h : normalizeDatasetOptions options bounds = .ok normalized) :
    normalized.kind = keyedJSON ∧ 0 < normalized.maxRecords ∧ 0 < normalized.maxValueBytes := by
  have records := bounds.records_pos
  have value := bounds.value_pos
  unfold normalizeDatasetOptions at h
  grind

/-- A call that may be admitted: its names are valid, and its bucket is there. -/
def Call.Ready (c : CatalogState) : Call → Prop
  | .bucket name => validCatalogName "bucket" name = .ok ()
  | .dataset handle name _ => validCatalogName "dataset" name = .ok () ∧ handle.name ∈ c.buckets
  | _ => True

/-- The next identity is not the last one, or no call is pending that would take it. -/
def Host.Room (host : Host) : Prop :=
  host.db.catalog.nextDatasetID + 1 = 0 → ∀ bucket name options,
    Call.dataset bucket name options ∈ host.waiting →
      host.db.catalog.dataset? bucket.name name ≠ none

section Install

variable {db : Database} {call : Call} {next : CatalogState}

/-- A dataset gets an identity that no dataset has had. -/
theorem CatalogState.Sound.install (sound : db.catalog.Sound) (new : db.Structural call next)
    (ready : call.Ready db.catalog)
    (room : ∀ bucket name options, call = .dataset bucket name options →
      db.catalog.dataset? bucket.name name = none → db.catalog.nextDatasetID + 1 ≠ 0) :
    next.Sound := by
  have identity : next.databaseID ≠ [] := by cases new <;> exact sound.identity
  have buckets (bucket : Bytes) (mem : bucket ∈ next.buckets) :
      validCatalogName "bucket" bucket = .ok () := by
    cases new with
    | bucket absent =>
      rcases ExtTreeMap.mem_insert.mp mem with same | mem
      · rw [← LawfulEqCmp.eq_of_compare same]
        exact ready
      · exact sound.buckets bucket mem
    | dataset normal absent =>
      rcases ExtTreeMap.mem_insert.mp mem with same | mem
      · rw [← LawfulEqCmp.eq_of_compare same]
        exact sound.buckets _ ready.2
      · exact sound.buckets bucket mem
  cases call with
  | bucket name =>
    have same : next.nextDatasetID = db.catalog.nextDatasetID := by cases new; rfl
    refine ⟨identity, same ▸ sound.next, buckets, ?_, ?_⟩
    · simpa only [new.dataset?_bucket, same] using sound.datasets
    · simpa only [new.dataset?_bucket] using sound.unique
  | dataset bucket name options =>
    obtain ⟨normalized, normal, absent, id, lookup⟩ := new.dataset?_dataset
    obtain ⟨kind, records, value⟩ := normalizeDatasetOptions_ok normal
    have room := room bucket name options rfl absent
    have above : db.catalog.nextDatasetID < next.nextDatasetID := by
      rw [id]
      grind
    refine ⟨identity, by rwa [id], buckets, fun b n info get => ?_, ?_⟩
    · rw [lookup] at get
      split at get
      · rename_i same
        obtain ⟨rfl, rfl⟩ := same
        obtain rfl := Option.some_inj.mp get
        exact ⟨ready.1, sound.next, above, rfl, rfl, kind, rfl, records, value⟩
      · have old := sound.datasets b n info get
        exact { old with below := UInt64.lt_trans old.below above }
    · intro b n info b' n' info' get get' same
      rw [lookup] at get get'
      split at get <;> split at get'
      · rename_i first second
        exact ⟨first.1.symm.trans second.1, first.2.symm.trans second.2⟩
      · obtain rfl := Option.some_inj.mp get
        have below := (sound.datasets b' n' info' get').below
        rw [← same] at below
        exact absurd below (UInt64.lt_irrefl _)
      · obtain rfl := Option.some_inj.mp get'
        have below := (sound.datasets b n info get).below
        rw [same] at below
        exact absurd below (UInt64.lt_irrefl _)
      · exact sound.unique b n info b' n' info' get get' same
  | _ => cases new

/-- A new dataset has no records. -/
theorem CatalogState.Owns.install {records : ByteMap Bytes} (sound : db.catalog.Sound)
    (owns : db.catalog.Owns records) (new : db.Structural call next) : next.Owns records := by
  refine ⟨fun key value get => ?_, fun b n info get => ?_⟩
  · obtain ⟨bucket, name, info, listed, rest⟩ := owns.record key value get
    exact ⟨bucket, name, info, new.within.datasets _ _ _ listed, rest⟩
  · cases call with
    | bucket name =>
      rw [new.dataset?_bucket] at get
      exact owns.count b n info get
    | dataset bucket name options =>
      obtain ⟨normalized, normal, absent, id, lookup⟩ := new.dataset?_dataset
      rw [lookup] at get
      split at get
      · obtain rfl := Option.some_inj.mp get
        have none : recordCount records db.catalog.nextDatasetID = 0 := by
          rw [recordCount, countKeys, List.countP_eq_zero]
          intro key mem holds
          obtain ⟨value, get⟩ := Option.isSome_iff_exists.mp
            (ExtTreeMap.mem_iff_isSome_getElem?.mp (ExtTreeMap.mem_keys.mp mem))
          obtain ⟨bucket, name, info, listed, named, -⟩ := owns.record key value get
          have same : info.id = db.catalog.nextDatasetID := by simpa [named] using holds
          have below := (sound.datasets _ _ _ listed).below
          rw [same] at below
          exact absurd below (UInt64.lt_irrefl _)
        have pos := (normalizeDatasetOptions_ok normal).2.1
        simp only [Database.Structural.entry, none]
        omega
      · exact owns.count b n info get
    | _ => cases new

end Install

/-! ## Runs -/

/-- What recovery asks of a database, and that its records fit it. -/
structure Database.Proper (db : Database) : Prop where
  sound : db.catalog.Sound
  owns : db.catalog.Owns db.keyed.records
  total : db.keyed.records.size ≤ db.keyed.options.maxRecords

/-- A proper database with calls that may be admitted. -/
structure Host.Proper (host : Host) : Prop where
  db : host.db.Proper
  ready : ∀ call ∈ host.waiting, call.Ready host.db.catalog

variable {answers : List Answer} {host : Host} {d : Directory}

theorem Submission.Given.knows {db : Database} {submission : Submission}
    (given : submission.Given db.handle answers)
    (known : ∀ answer ∈ answers, answer.Known db.catalog) {callback : MutationFunc}
    (eq : submission.mutation.callback db = some callback) :
    ∃ program, submission.mutation = .catalog (some program) ∧ callback = db.mutation program ∧
      program.Knows db := by
  unfold Submission.Given at given
  split at given
  · contradiction
  · rename_i none
    simp [none, Mutation.callback] at eq
  · rename_i program submitted
    simp only [submitted, Mutation.callback, Option.map_some, Option.some_inj] at eq
    exact ⟨program, submitted, eq.symm, given.mono fun dataset used own => known _ (used own)⟩

theorem Database.Proper.commit {host : Host} (h : host.db.Proper) {size : Nat}
    (knows : ∀ submission ∈ host.queue.take size, ∀ callback,
      submission.mutation.callback host.db = some callback →
        ∃ program, callback = host.db.mutation program ∧ program.Knows host.db)
    (faults : Faults) : (host.commit size faults).db.Proper := by
  have kept : host.db.catalog.Owns (host.group size faults).db.records ∧
      (host.group size faults).db.records.size ≤
        (host.group size faults).db.options.maxRecords := by
    refine processCommitGroup_induction (P := fun db _ _ => host.db.catalog.Owns db.records ∧
      db.records.size ≤ db.options.maxRecords) ⟨h.owns, h.total⟩ ?_ ?_ ?_
    · intro db wal applied request record fault wal' asked ⟨owns, total⟩ _ run _
      obtain ⟨submission, mem, rfl⟩ := List.mem_map.mp asked
      obtain ⟨-, -, -, callback, eq, -⟩ := executeKeyed_eq_decided run
      obtain ⟨program, rfl, known⟩ := knows submission mem callback eq
      rw [eq] at run
      exact ⟨owns.decided known run, size_decided total run⟩
    · exact fun _ _ _ _ _ _ _ _ _ kept _ _ _ => kept
    · exact fun _ _ _ kept => kept
  exact ⟨h.sound, kept.1, kept.2⟩

theorem Host.Proper.change {taken : Nat} {db : Database} (h : host.Proper) (room : host.Room)
    (change : host.Change taken db d) (knows : ∀ submission ∈ host.queue.take taken, ∀ callback,
      submission.mutation.callback host.db = some callback →
        ∃ program, callback = host.db.mutation program ∧ program.Knows host.db) : db.Proper := by
  obtain ⟨sound, owns, total⟩ := h.db
  cases change with
  | quiet | finish | close => exact ⟨sound, owns, total⟩
  | call pending live effect =>
    cases effect with
    | quiet | snapshot | snapshotFailed | installFailed => exact ⟨sound, owns, total⟩
    | install new done =>
      refine ⟨sound.install new (h.ready _ pending) ?_, owns.install sound new, total⟩
      rintro bucket name options rfl absent wraps
      exact room wraps bucket name options pending absent
  | group size faults => exact h.db.commit knows faults

/-- The calls that wait behind a step waited before, or have just been checked. -/
theorem Host.Step.waiting {next : Host} (step : host.Step answers next) :
    ∀ call ∈ next.waiting, call ∈ host.waiting ∨
      ∃ ctx, host.request ctx call = .ok () ∧ next.db = host.db := by
  cases step with
  | wait good =>
    intro call mem
    rcases List.mem_append.mp mem with mem | mem
    · exact .inl mem
    · obtain rfl := List.mem_singleton.mp mem
      exact .inr ⟨_, good, rfl⟩
  | abandon message pending | perform env pending =>
    intro call mem
    refine .inl ?_
    rw [pending]
    simp only [List.mem_append, List.mem_cons] at mem ⊢
    tauto
  | finish env closed drained first =>
    intro call mem
    refine .inl ?_
    simp only [Host.finish] at mem
    split at mem <;> exact mem
  | _ => exact fun _ mem => .inl mem

theorem Call.Ready.within {c c' : CatalogState} {call : Call} (h : call.Ready c)
    (within : c.Within c') : call.Ready c' := by
  cases call with
  | dataset handle name options => exact ⟨h.1, within.buckets _ h.2⟩
  | _ => exact h

theorem Call.ready_of_validate {c : CatalogState} {call : Call} {options : KeyedBounds}
    (valid : call.validate options = .ok ()) (given : call.Given answers)
    (known : ∀ answer ∈ answers, answer.Known c) : call.Ready c := by
  cases call with
  | bucket name => exact valid
  | dataset handle name datasetOptions =>
    obtain ⟨_, named, -⟩ := bind_ok.mp valid
    exact ⟨named, known _ given⟩
  | _ => trivial

theorem Host.Step.ready {next : Host} {later : List Answer}
    (ready : ∀ call ∈ host.waiting, call.Ready host.db.catalog)
    (known : ∀ answer ∈ answers, answer.Known host.db.catalog) (step : host.Step later next)
    (given : host.Given next answers) : ∀ call ∈ next.waiting, call.Ready next.db.catalog := by
  intro call mem
  rcases step.waiting call mem with old | ⟨ctx, good, same⟩
  · exact (ready call old).within step.change.within
  · rw [same]
    simp only [Host.request] at good
    split at good
    · cases good
    · exact Call.ready_of_validate ‹_› (given.waiting call mem) known

theorem Host.Proper.step {host next : Host} {answers later : List Answer} (h : host.Proper)
    (known : ∀ answer ∈ answers, answer.Known host.db.catalog) (room : host.Room)
    (step : host.Step later next) (given : host.Given next answers) : next.Proper := by
  refine ⟨h.change room step.change fun submission mem callback eq => ?_,
    step.ready h.ready known given⟩
  obtain ⟨program, -, rest⟩ := (given.taken submission mem).knows known eq
  exact ⟨program, rest⟩

theorem Host.Use.proper {start last : Host} (h : start.Proper)
    (use : Host.Use (fun host _ => host.Room) start answers last) : last.Proper := by
  induction use with
  | refl => exact h
  | step before step given allow ih => exact ih.step before.known allow step given

/-! ## Opening -/

theorem openKeyed_total {options : KeyedOptions} {format : KeyedFormat} {e : Directory}
    {keyed : KeyedDB} (h : openKeyed options format d = .ok (keyed, e)) :
    keyed.records.size ≤ keyed.options.maxRecords := by
  obtain ⟨bounds, -, stored⟩ := bind_ok.mp h
  refine openStorage_induction (P := fun db => db.records.size ≤ db.options.maxRecords)
    (fun db record small valid room => ?_) stored (Nat.zero_le _) fun snapshot u loaded => ?_
  · simp only [applyKeyed]
    split
    · rename_i applied
      have count := validateKeyedApply_ok room applied
      have distinct := (validateKeyedRecord_ok.mp valid).distinct
      rw [← size_foldl_applyMutation distinct fun _ _ => Iff.rfl] at count
      exact_mod_cast count
    · exact small
  · have eq := loadSnapshot_ok loaded
    unfold loadSnapshot at loaded
    split at loaded
    · cases loaded
    rename_i fits
    rw [eq]
    exact Nat.not_lt.mp fun big => fits (.inl big)

theorem loadOrCreateCatalog_proper {identity : Identity} {fault : Option (Nat × String)}
    {keyed : KeyedDB} {e : Directory} {state : CatalogState}
    (h : loadOrCreateCatalog identity fault keyed d = .ok (state, e)) :
    state.Sound ∧ state.Owns keyed.records := by
  unfold loadOrCreateCatalog at h
  split at h
  · split at h
    · cases h
    rename_i blank
    simp only at h
    split at h
    · cases h
    cases h
    have empty : keyed.records = ∅ := by
      simp only [ne_eq, not_or, not_not, Bool.not_eq_false] at blank
      exact ExtTreeMap.isEmpty_iff.mp blank.2
    have none (bucket name : Bytes) : CatalogState.dataset?
        { databaseID := hexText identity.val, nextDatasetID := 1 } bucket name = none := by
      simp [CatalogState.dataset?]
    refine ⟨⟨?_, by simp, by simp, by simp [none], by simp [none]⟩,
      ⟨by simp [empty], by simp [none]⟩⟩
    intro blank
    have length := congrArg List.length blank
    simp [hexText, identity.2] at length
  · split at h
    · cases h
    split at h
    · cases h
    split at h
    · cases h
    split at h
    · cases h
    obtain ⟨_, valid, rest⟩ := bind_ok.mp h
    cases rest
    rwa [← validateCatalogState_ok_iff, decoded_toState valid]

theorem openCatalog_proper {handle : Nat} {identity : Identity} {fault : Option (Nat × String)}
    {options : KeyedOptions} {d' : Directory} {db : Database}
    (opened : openCatalog handle identity fault options d = .ok (db, d')) : db.Proper := by
  obtain ⟨keyed, d₁, state, recovered, loaded, rfl⟩ := openCatalog_ok opened
  obtain ⟨sound, owns⟩ := loadOrCreateCatalog_proper loaded
  exact ⟨sound, owns, openKeyed_total recovered⟩

/-! ## Every state of a database -/

/-- In every state of a database that was opened, with the handles that were given out: the
identities of the datasets differ, are not zero and below the next one; every record has a
dataset and is within its bound; every dataset and the whole store have no more records than
they may; and recovery would accept the state. It only takes that no dataset is created under
the last identity. -/
theorem bounds_and_ownership {handle : Nat} {identity : Identity} {fault : Option (Nat × String)}
    {options : KeyedOptions} {d d' : Directory} {db : Database} {last : Host}
    {answers : List Answer} (opened : openCatalog handle identity fault options d = .ok (db, d'))
    (use : Host.Use (fun host _ => host.Room) { db := db, dir := d' } answers last) :
    (∀ bucket name info, last.db.catalog.dataset? bucket name = some info →
      info.id ≠ 0 ∧ info.id < last.db.catalog.nextDatasetID ∧
      recordCount last.db.keyed.records info.id ≤ info.bounds.maxRecords ∧
      ∀ bucket' name' info', last.db.catalog.dataset? bucket' name' = some info' →
        info.id = info'.id → bucket = bucket' ∧ name = name') ∧
    (∀ (key value : Bytes), last.db.keyed.records[key]? = some value →
      ∃ bucket name info, last.db.catalog.dataset? bucket name = some info ∧
        backendDatasetID key = some info.id ∧ value.length ≤ info.bounds.maxValueBytes) ∧
    last.db.keyed.records.size ≤ last.db.keyed.options.maxRecords ∧
    validateCatalogState last.db.catalog.decoded last.db.keyed = .ok () := by
  obtain ⟨sound, owns, total⟩ := (use.proper ⟨openCatalog_proper opened, by simp⟩).db
  refine ⟨fun bucket name info get => ?_, owns.record, total,
    validateCatalogState_ok_iff.mpr ⟨sound, owns⟩⟩
  have entry := sound.datasets bucket name info get
  exact ⟨entry.nonzero, entry.below, owns.count bucket name info get,
    fun bucket' name' info' get' => sound.unique _ _ _ _ _ _ get get'⟩

theorem Host.room_of_next (low : host.db.catalog.nextDatasetID + 1 ≠ 0) : host.Room :=
  fun wraps => absurd wraps low

theorem oneDataset_used : ∃ answers,
    Host.Use (fun host _ => host.Room) newDatabase
      (answers ++ [.reply (.ok (.dataset firstDataset))]) oneDataset := by
  have bucket := @Host.Use.call (fun host _ => host.Room) newDatabase newDatabase [] .live .refl
    (.bucket (ascii "b")) {} rfl (by decide +kernel) trivial (Host.room_of_next (by decide +kernel))
    (Host.room_of_next (by decide +kernel))
  exact ⟨_, @Host.Use.call (fun host _ => host.Room) newDatabase oneBucket _ .live bucket
    (.dataset ⟨0, ascii "b"⟩ (ascii "d") {}) {} rfl (by decide +kernel) (List.mem_singleton.mpr rfl)
    (Host.room_of_next (by decide +kernel)) (Host.room_of_next (by decide +kernel))⟩

theorem twoRecords_used : ∃ answers,
    Host.Use (fun host _ => host.Room) newDatabase answers twoRecords := by
  obtain ⟨answers, dataset⟩ := oneDataset_used
  exact ⟨_, @Host.Use.mutate (fun host _ => host.Room) newDatabase oneDataset _ .live dataset
    putTwo {} rfl rfl rfl rfl rfl (by simp [Submission.Given, putTwo, TxProgram.Uses])
    (Host.room_of_next (by decide +kernel)) (Host.room_of_next (by decide +kernel))
    (Host.room_of_next (by decide +kernel))⟩

theorem bounds_and_ownership_two : twoRecords.db.keyed.records.size = 2 ∧
    validateCatalogState twoRecords.db.catalog.decoded twoRecords.db.keyed = .ok () := by
  obtain ⟨answers, use⟩ := twoRecords_used
  obtain ⟨-, -, -, valid⟩ := bounds_and_ownership newDatabase_opened use
  exact ⟨by decide +kernel, valid⟩

section LastIdentity

def lastCatalog : CatalogState := { emptyCatalog with nextDatasetID := 18446744073709551615 }

def lastDatabase : Host where
  db := { handle := 0, keyed := .blank smallBounds .catalog, catalog := lastCatalog }
  dir := {
    format := some KeyedFormat.catalog.contents
    wal := some []
    catalog := some lastCatalog.file }

theorem lastDatabase_opened :
    openCatalog 0 zeroIdentity none smallOptions lastDatabase.dir =
      .ok (lastDatabase.db, lastDatabase.dir) := by
  have none (bucket name : Bytes) : lastCatalog.dataset? bucket name = none := by
    simp [CatalogState.dataset?, lastCatalog, emptyCatalog]
  have readable : lastCatalog.Readable :=
    ⟨valid_hexText _, by simp [lastCatalog, emptyCatalog], by simp [none], by simp [none]⟩
  have valid : validateCatalogState lastCatalog.decoded lastDatabase.db.keyed = .ok () := rfl
  have loaded := @CatalogState.Readable.loadOrCreateCatalog_file _ readable zeroIdentity
    Option.none lastDatabase.db.keyed lastDatabase.dir rfl
  rw [valid] at loaded
  have recovered : openKeyed smallOptions .catalog lastDatabase.dir =
      .ok (lastDatabase.db.keyed, lastDatabase.dir) := rfl
  exact bind_ok.mpr ⟨_, recovered, bind_ok.mpr ⟨_, loaded, rfl⟩⟩

def lastDataset : Host :=
  ((lastDatabase.perform (.bucket (ascii "b")) {}).1.perform
    (.dataset ⟨0, ascii "b"⟩ (ascii "d") {}) {}).1

/-- A dataset under the last identity: the next identity is zero, and recovery refuses the
state. -/
theorem last_identity_wraps :
    openCatalog 0 zeroIdentity none smallOptions lastDatabase.dir =
      .ok (lastDatabase.db, lastDatabase.dir) ∧
    (∃ answers, Host.Use (fun _ _ => True) lastDatabase answers lastDataset) ∧
    (lastDataset.db.catalog.dataset? (ascii "b") (ascii "d")).map (·.id) =
      some 18446744073709551615 ∧
    lastDataset.db.catalog.nextDatasetID = 0 ∧
    failure (validateCatalogState lastDataset.db.catalog.decoded lastDataset.db.keyed) =
      some (catalogError .corruption "catalog identity or topology is invalid") := by
  refine ⟨lastDatabase_opened, ?_, by decide +kernel, by decide +kernel, by decide +kernel⟩
  have bucket := @Host.Use.call (fun _ _ => True) lastDatabase lastDatabase [] .live .refl
    (.bucket (ascii "b")) {} rfl (by decide +kernel) trivial trivial trivial
  exact ⟨_, @Host.Use.call (fun _ _ => True) lastDatabase _ _ .live bucket
    (.dataset ⟨0, ascii "b"⟩ (ascii "d") {}) {} rfl (by decide +kernel) (List.mem_singleton.mpr rfl)
    trivial trivial⟩

end LastIdentity

end OctetDB
