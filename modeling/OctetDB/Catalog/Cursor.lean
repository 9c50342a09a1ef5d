import OctetDB.Catalog.Host
import OctetDB.Catalog.Open
import OctetDB.Keyed.Recovery

/-!
# The key lists are the records

Beside the records, a database keeps a list of the keys of every dataset, for scans. The lists
are rebuilt when the database is opened, and from then on every decision that is applied to the
records is applied to the lists as well. At any time the list of a dataset holds exactly the
keys of its records, in ascending order.
-/

namespace OctetDB

open Std

/-! ## Backend keys -/

variable {key : Bytes} {queryKeys : WordMap (List Bytes)} {keys backendKeys : List Bytes}
  {db : Database} {d : Directory}

/-- A key that names a dataset is the backend key of a record of it. -/
theorem backendDatasetID_eq_some {id : UInt64} :
    backendDatasetID key = some id ↔ key = backendRecordKey id (key.drop 9) := by
  constructor
  · intro h
    unfold backendDatasetID at h
    split at h
    · cases h
    rename_i long
    obtain ⟨tail, rfl⟩ : ∃ tail, key = 0 :: tail := by
      cases key with
      | nil => simp at long
      | cons b tail => exact ⟨tail, by simp_all⟩
    have length : (tail.take 8).length = 8 := by simp at long ⊢; omega
    have read := putUint64BE_uint64BE length
    obtain rfl : uint64BE (tail.take 8) = id := by simpa using h
    rw [backendRecordKey, read]
    simp
  · intro h
    rw [h, backendDatasetID_backendRecordKey]

@[simp] theorem drop_backendRecordKey (id : UInt64) (key : Bytes) :
    (backendRecordKey id key).drop 9 = key := by
  rw [backendRecordKey, List.drop_succ_cons, List.drop_left' (by simp)]

theorem backendRecordKey_inj {id id' : UInt64} {key' : Bytes} :
    backendRecordKey id key = backendRecordKey id' key' ↔ id = id' ∧ key = key' := by
  refine ⟨fun h => ⟨?_, ?_⟩, fun ⟨rfl, rfl⟩ => rfl⟩
  · have same := congrArg backendDatasetID h
    simpa using same
  · have same := congrArg (List.drop 9) h
    simpa using same

/-! ## The invariant -/

/-- The lists hold exactly the keys of the records, dataset by dataset, and ascend. -/
def Cursor (records : ByteMap Bytes) (queryKeys : WordMap (List Bytes)) : Prop :=
  ∀ id, Search.Ascending compare (queryKeys.getD id []) ∧
    ∀ key, key ∈ queryKeys.getD id [] ↔ backendRecordKey id key ∈ records

/-- A list that changes together with one record. -/
theorem Cursor.update {records records' : ByteMap Bytes} (h : Cursor records queryKeys)
    {id : UInt64} (asc : Search.Ascending compare keys)
    (mem : ∀ key, key ∈ keys ↔ backendRecordKey id key ∈ records')
    (other : ∀ id' key, id' ≠ id → (backendRecordKey id' key ∈ records' ↔
      backendRecordKey id' key ∈ records)) : Cursor records' (queryKeys.insert id keys) := by
  intro id'
  by_cases same : id' = id
  · subst same
    simp only [ExtTreeMap.getD_insert_self]
    exact ⟨asc, mem⟩
  · have differ : ¬ compare id id' = .eq := by simpa using Ne.symm same
    simp only [ExtTreeMap.getD_insert, differ, if_false]
    exact ⟨(h id').1, fun key => by rw [(h id').2, other id' key same]⟩

theorem Cursor.apply {records : ByteMap Bytes} {queryKeys : WordMap (List Bytes)}
    (h : Cursor records queryKeys) (m : KeyedMutation) :
    Cursor (applyMutation records m) (applyQueryKeyMutation queryKeys m) := by
  unfold applyQueryKeyMutation
  cases named : backendDatasetID m.key with
  | none =>
    -- A key without a dataset is in no list.
    have other (id : UInt64) (key : Bytes) : m.key ≠ backendRecordKey id key := by
      intro same
      rw [same, backendDatasetID_backendRecordKey] at named
      cases named
    intro id
    refine ⟨(h id).1, fun key => ?_⟩
    rw [(h id).2]
    unfold applyMutation
    split <;> simp [ExtTreeMap.mem_erase, ExtTreeMap.mem_insert, other id key]
  | some id =>
    have full := backendDatasetID_eq_some.mp named
    obtain ⟨asc, mem⟩ := h id
    have found := Search.getElem?_position asc (m.key.drop 9)
    have same_iff (key : Bytes) : m.key = backendRecordKey id key ↔ key = m.key.drop 9 := by
      constructor
      · intro same
        rw [same, drop_backendRecordKey]
      · rintro rfl
        exact full
    have others (id' : UInt64) (key : Bytes) (differ : id' ≠ id) :
        m.key ≠ backendRecordKey id' key := by
      rw [full, ne_eq, backendRecordKey_inj]
      exact fun same => differ same.1.symm
    simp only [searchStrings, found]
    cases delete : m.delete with
    | true =>
      simp only [applyMutation, delete, if_true]
      by_cases present : m.key.drop 9 ∈ queryKeys.getD id []
      · rw [if_pos present]
        obtain ⟨asc, erased⟩ := Search.ascending_erase asc present
        refine h.update asc (fun key => ?_) fun id' key differ => ?_
        · rw [erased, mem, ExtTreeMap.mem_erase, ne_eq, ne_eq, Std.compare_eq_iff_eq, same_iff]
        · simp [ExtTreeMap.mem_erase, others id' key differ]
      · rw [if_neg present]
        have absent : m.key ∉ records := by rwa [full, ← mem]
        intro id'
        refine ⟨(h id').1, fun key => ?_⟩
        rw [(h id').2, ExtTreeMap.mem_erase]
        refine ⟨fun present => ⟨?_, present⟩, And.right⟩
        intro same
        rw [LawfulEqCmp.eq_of_compare same] at absent
        exact absent present
    | false =>
      simp only [applyMutation, delete, Bool.false_eq_true, if_false]
      by_cases present : m.key.drop 9 ∈ queryKeys.getD id []
      · rw [if_pos present]
        have there : m.key ∈ records := by rwa [full, ← mem]
        intro id'
        refine ⟨(h id').1, fun key => ?_⟩
        rw [(h id').2, ExtTreeMap.mem_insert]
        refine ⟨.inr, fun new => new.elim (fun same => ?_) fun old => old⟩
        rwa [← LawfulEqCmp.eq_of_compare same]
      · rw [if_neg present]
        obtain ⟨asc, inserted⟩ := Search.ascending_insert asc present
        refine h.update asc (fun key => ?_) fun id' key differ => ?_
        · rw [inserted, mem, ExtTreeMap.mem_insert, Std.compare_eq_iff_eq, same_iff]
        · simp [ExtTreeMap.mem_insert, others id' key differ]

/-- One decision, on the records and on the lists. -/
theorem Cursor.record {db : KeyedDB} (h : Cursor db.records queryKeys) (r : KeyedWALRecord) :
    Cursor (applyKeyed db r).records (applyQueryKeyMutations queryKeys r) := by
  simp only [applyKeyed, applyQueryKeyMutations]
  split
  · generalize db.records = records at h ⊢
    induction r.mutations generalizing records queryKeys with
    | nil => exact h
    | cons m ms ih => exact ih _ (h.apply m)
  · exact h

/-! ## Opening -/

/-- The record keys of a dataset among backend keys. -/
def datasetKeys (id : UInt64) (backendKeys : List Bytes) : List Bytes :=
  backendKeys.filterMap fun key =>
    if backendDatasetID key = some id then some (key.drop 9) else none

theorem mem_datasetKeys {id : UInt64} :
    key ∈ datasetKeys id backendKeys ↔ backendRecordKey id key ∈ backendKeys := by
  simp only [datasetKeys, List.mem_filterMap, Option.ite_none_right_eq_some, Option.some_inj,
    backendDatasetID_eq_some]
  constructor
  · rintro ⟨_, mem, full, rfl⟩
    rwa [← full]
  · exact fun mem => ⟨_, mem, by simp, by simp⟩

theorem nodup_datasetKeys {id : UInt64} (nodup : backendKeys.Nodup) :
    (datasetKeys id backendKeys).Nodup := by
  refine nodup.filterMap fun a b key ha hb => ?_
  simp only [Option.mem_def, Option.ite_none_right_eq_some, Option.some_inj,
    backendDatasetID_eq_some] at ha hb
  rw [ha.1, hb.1, ha.2, hb.2]

theorem getD_foldl_appendQueryKey (backendKeys : List Bytes) (queryKeys : WordMap (List Bytes))
    (id : UInt64) : (backendKeys.foldl appendQueryKey queryKeys).getD id [] =
      queryKeys.getD id [] ++ datasetKeys id backendKeys := by
  induction backendKeys generalizing queryKeys with
  | nil => simp [datasetKeys]
  | cons key keys ih =>
    rw [List.foldl_cons, ih]
    simp only [datasetKeys, List.filterMap_cons, appendQueryKey]
    cases named : backendDatasetID key with
    | none => simp
    | some other =>
      by_cases same : other = id
      · simp [same]
      · simp [same, ExtTreeMap.getD_insert]

/-- In whatever order the records are visited, the lists are those of the records. -/
theorem Cursor.initialized {records : ByteMap Bytes} (visited : backendKeys.Perm records.keys) :
    Cursor records (initializeQueryKeys backendKeys) := by
  intro id
  have list : (initializeQueryKeys backendKeys).getD id [] =
      sortStrings (datasetKeys id backendKeys) := by
    have built := getD_foldl_appendQueryKey backendKeys ∅ id
    rw [ExtTreeMap.getD_eq_getD_getElem?] at built
    rw [initializeQueryKeys, ExtTreeMap.getD_map]
    cases get : (backendKeys.foldl appendQueryKey ∅)[id]? with
    | none =>
      rw [get] at built
      have empty : datasetKeys id backendKeys = [] := by simpa using built.symm
      simp [empty, sortStrings]
    | some keys =>
      rw [get] at built
      have same : keys = datasetKeys id backendKeys := by simpa using built
      simp [same]
  have nodup : backendKeys.Nodup := by
    refine visited.nodup_iff.mpr (records.distinct_keys.imp fun differ => ?_)
    simpa using differ
  rw [list]
  refine ⟨Search.ascending_mergeSort (nodup_datasetKeys nodup), fun key => ?_⟩
  rw [sortStrings, List.mem_mergeSort, mem_datasetKeys, visited.mem_iff, ExtTreeMap.mem_keys]

/-! ## Runs of a handle -/

/-- What the coordinator does to the records of a group it does to the lists. -/
theorem Cursor.commit {host : Host} (format : host.db.keyed.format = .catalog)
    (h : Cursor host.db.keyed.records host.db.queryKeys) (size : Nat) (faults : Faults) :
    Cursor (host.commit size faults).db.keyed.records (host.commit size faults).db.queryKeys := by
  simp only [Host.commit, format]
  exact processCommitGroup_induction
    (P := fun db _ applied =>
      Cursor db.records (applied.foldl applyQueryKeyMutations host.db.queryKeys))
    h (fun db wal applied request record fault wal' _ h _ _ _ => by
      rw [List.foldl_append]
      exact h.record record)
    (fun _ _ _ _ _ _ _ _ _ h _ _ _ => h) fun _ _ _ h => h

/-- A catalogued database whose lists are those of its records. -/
structure Database.Listed (db : Database) : Prop where
  format : db.keyed.format = .catalog
  cursor : Cursor db.keyed.records db.queryKeys

theorem Database.Listed.change {host : Host} {taken : Nat} (h : host.db.Listed)
    (change : host.Change taken db d) : db.Listed := by
  cases change with
  | quiet | finish | close => exact ⟨h.format, h.cursor⟩
  | call pending live effect => cases effect <;> exact ⟨h.format, h.cursor⟩
  | group size faults =>
    refine ⟨?_, h.cursor.commit h.format _ faults⟩
    exact @processCommitGroup_induction faults _ _ _ (fun db _ _ => db.format = .catalog) h.format
      (fun _ _ _ _ _ _ _ _ h _ _ _ => h) (fun _ _ _ _ _ _ _ _ _ h _ _ _ => h) fun _ _ _ h => h

theorem Host.Run.listed {host last : Host} {answers : List Answer} (h : host.db.Listed)
    (run : host.Run answers last) : last.db.Listed := by
  induction run with
  | refl => exact h
  | step step rest ih => exact ih (h.change step.change)

/-- What opening a database does: the store is recovered, the topology is loaded. -/
theorem openCatalog_ok {handle : Nat} {identity : Identity} {fault : Option (Nat × String)}
    {options : KeyedOptions} {d' : Directory}
    (opened : openCatalog handle identity fault options d = .ok (db, d')) :
    ∃ keyed d₁ state, openKeyed options .catalog d = .ok (keyed, d₁) ∧
      loadOrCreateCatalog identity fault keyed d₁ = .ok (state, d') ∧
      db = { handle := handle, keyed := keyed, catalog := state,
             queryKeys := initializeQueryKeys keyed.records.keys } := by
  simp only [openCatalog, bind_ok, Prod.exists, Except.ok.injEq, Prod.mk.injEq] at opened
  obtain ⟨keyed, d₁, recovered, state, d₂, loaded, rfl, rfl⟩ := opened
  exact ⟨keyed, d₁, state, recovered, loaded, rfl⟩

theorem openCatalog_listed {handle : Nat} {identity : Identity} {fault : Option (Nat × String)}
    {options : KeyedOptions} {d' : Directory}
    (opened : openCatalog handle identity fault options d = .ok (db, d')) : db.Listed := by
  obtain ⟨keyed, d₁, state, recovered, -, rfl⟩ := openCatalog_ok opened
  refine ⟨?_, .initialized (.refl _)⟩
  obtain ⟨bounds, -, stored⟩ := bind_ok.mp recovered
  exact openStorage_induction (P := fun db => db.format = .catalog) (fun _ _ h _ _ => h) stored rfl
    fun snapshot u loaded => by rw [loadSnapshot_ok loaded]

/-! ## Scans -/

section Scan

variable {records : ByteMap Bytes} {id : UInt64} {visit : Visit} {cancelled : Nat → Option String}

/-- The records that a scan shows for a list of keys. -/
def scanRows (records : ByteMap Bytes) (id : UInt64) (keys : List Bytes) : List (Bytes × Bytes) :=
  keys.map fun key => (key, records.getD (backendRecordKey id key) [])

theorem Cursor.mem_scanRows (h : Cursor records queryKeys) (id : UInt64) (key value : Bytes) :
    (key, value) ∈ scanRows records id (queryKeys.getD id []) ↔
      records[backendRecordKey id key]? = some value := by
  simp only [scanRows, List.mem_map, Prod.mk.injEq, (h id).2]
  constructor
  · rintro ⟨_, present, rfl, rfl⟩
    obtain ⟨stored, get⟩ := Option.isSome_iff_exists.mp
      (ExtTreeMap.mem_iff_isSome_getElem?.mp present)
    rw [ExtTreeMap.getD_eq_getD_getElem?, get, Option.getD_some]
  · intro get
    refine ⟨key, ?_, rfl, by rw [ExtTreeMap.getD_eq_getD_getElem?, get, Option.getD_some]⟩
    rw [ExtTreeMap.mem_iff_isSome_getElem?, get]
    rfl

/-- Whatever the callback answers, it has been shown the first records. -/
theorem scanLoop_shown {seen shown : List (Bytes × Bytes)}
    (h : scanLoop records id visit cancelled keys seen = .ok shown) :
    ∃ n, shown = seen ++ (scanRows records id keys).take n := by
  induction keys generalizing seen with
  | nil =>
    simp only [scanLoop, Except.ok.injEq] at h
    exact ⟨0, by simp [h]⟩
  | cons key keys ih =>
    rw [scanLoop] at h
    split at h
    · cases h
    simp only at h
    split at h
    · cases h
    · obtain ⟨n, rfl⟩ := ih h
      exact ⟨n + 1, by simp [scanRows]⟩
    · cases h
      exact ⟨1, by simp [scanRows]⟩
    · cases h

theorem scanLoop_whole (continues : ∀ seen, visit seen = .ok .scanContinue)
    (live : ∀ i, cancelled i = none) {seen : List (Bytes × Bytes)} :
    scanLoop records id visit cancelled keys seen = .ok (seen ++ scanRows records id keys) := by
  induction keys generalizing seen with
  | nil => simp [scanLoop, scanRows]
  | cons key keys ih =>
    simp only [scanLoop, live, continues]
    rw [ih]
    simp [scanRows]

/-- A callback that stops at the n-th record, if there are that many, has been shown n. -/
theorem scanLoop_take {n : Nat} (stops : ∀ seen, visit seen =
      .ok (if seen.length = n then .scanStop else .scanContinue))
    (live : ∀ i, cancelled i = none) {keys : List Bytes} {seen : List (Bytes × Bytes)}
    (before : seen.length < n) : scanLoop records id visit cancelled keys seen =
      .ok (seen ++ (scanRows records id keys).take (n - seen.length)) := by
  induction keys generalizing seen with
  | nil => simp [scanLoop, scanRows]
  | cons key keys ih =>
    simp only [scanLoop, live, stops, List.length_append, List.length_singleton]
    obtain ⟨m, left⟩ : ∃ m, n - seen.length = m + 1 := ⟨n - seen.length - 1, by omega⟩
    rw [left]
    by_cases last : seen.length + 1 = n
    · obtain rfl : m = 0 := by omega
      simp [last, scanRows]
    · simp only [if_neg last]
      rw [ih (by simp; omega), List.length_append, List.length_singleton,
        show n - (seen.length + 1) = m by omega]
      simp [scanRows]

end Scan

/-- In every state of a database that was opened, whatever calls, mutations and failures came
before: the list of every dataset ascends strictly and holds exactly the keys of its records. So
a scan shows every record of the dataset once, in ascending order and with its current value; one
that is stopped at the n-th record has shown the first n, and however a scan ends well, it has
shown the first records. -/
theorem cursor_exact {handle : Nat} {identity : Identity} {fault : Option (Nat × String)}
    {options : KeyedOptions} {d : Directory} {start last : Host} {answers : List Answer}
    (opened : openCatalog handle identity fault options d = .ok (start.db, start.dir))
    (run : start.Run answers last) (id : UInt64) :
    Search.Ascending compare (last.db.queryKeys.getD id []) ∧
    (∀ key, key ∈ last.db.queryKeys.getD id [] ↔
      backendRecordKey id key ∈ last.db.keyed.records) ∧
    ∃ rows : List (Bytes × Bytes), rows.map Prod.fst = last.db.queryKeys.getD id [] ∧
      (∀ key value, (key, value) ∈ rows ↔
        last.db.keyed.records[backendRecordKey id key]? = some value) ∧
      ∀ (dataset : Dataset) (visit : Visit), dataset.info.id = id →
        ((∀ seen, visit seen = .ok .scanContinue) →
          last.db.scan dataset visit (fun _ => none) = .ok rows) ∧
        (∀ n, 0 < n →
          (∀ seen, visit seen = .ok (if seen.length = n then .scanStop else .scanContinue)) →
          last.db.scan dataset visit (fun _ => none) = .ok (rows.take n)) ∧
        ∀ cancelled shown, last.db.scan dataset visit cancelled = .ok shown → shown <+: rows := by
  have cursor := (run.listed (openCatalog_listed opened)).cursor
  obtain ⟨asc, mem⟩ := cursor id
  refine ⟨asc, mem, scanRows last.db.keyed.records id (last.db.queryKeys.getD id []), ?_, ?_, ?_⟩
  · simp [scanRows, Function.comp_def]
  · exact cursor.mem_scanRows id
  · rintro dataset visit rfl
    refine ⟨fun continues => ?_, fun n pos stops => ?_, fun cancelled shown scanned => ?_⟩
    · exact scanLoop_whole continues fun _ => rfl
    · exact @scanLoop_take _ _ _ _ n stops (fun _ => rfl) _ [] pos
    · obtain ⟨n, rfl⟩ := scanLoop_shown scanned
      exact List.take_prefix n _

section TwoRecords

def zeroIdentity : Identity := ⟨List.replicate 16 0, rfl⟩

def emptyCatalog : CatalogState := { databaseID := hexText zeroIdentity.val, nextDatasetID := 1 }

def newDatabase : Host where
  db := { handle := 0, keyed := .blank smallBounds .catalog, catalog := emptyCatalog }
  dir := {
    format := some KeyedFormat.catalog.contents
    wal := some []
    catalog := some emptyCatalog.file }

theorem newDatabase_opened :
    openCatalog 0 zeroIdentity none smallOptions {} = .ok (newDatabase.db, newDatabase.dir) := rfl

def oneBucket : Host := (newDatabase.perform (.bucket (ascii "b")) {}).1

def oneDataset : Host :=
  (oneBucket.perform (.dataset ⟨0, ascii "b"⟩ (ascii "d") {}) {}).1

theorem oneDataset_reached : ∃ answers, newDatabase.Run answers oneDataset := by
  have bucket := @Host.Run.call newDatabase .live (.bucket (ascii "b")) {} rfl (by decide +kernel)
  have dataset := @Host.Run.call oneBucket .live (.dataset ⟨0, ascii "b"⟩ (ascii "d") {}) {} rfl
    (by decide +kernel)
  exact ⟨_, bucket.trans dataset⟩

def firstDataset : Dataset where
  db := 0
  info := { id := 1, bucketName := ascii "b", name := ascii "d", kind := keyedJSON
            origin := goCatalog, bounds := ⟨4, 16⟩ }

def putTwo : Submission where
  commandID := ascii "c"
  mutation := .catalog (some
    (.put firstDataset (ascii "y") (.ok nullText) fun _ =>
      .put firstDataset (ascii "x") (.ok nullText) fun _ => .done (.returned (.ok nullText))))

def twoRecords : Host := { oneDataset with queue := [putTwo] }.commit 1 {}

theorem twoRecords_reached : ∃ answers, newDatabase.Run answers twoRecords := by
  obtain ⟨answers, run⟩ := oneDataset_reached
  have mutated := @Host.Run.mutate oneDataset .live putTwo {} rfl rfl rfl rfl
  exact ⟨_, run.trans mutated⟩

theorem cursor_exact_two :
    (twoRecords.db.queryKeys.getD 1 []) = [ascii "x", ascii "y"] ∧
      Search.Ascending compare (twoRecords.db.queryKeys.getD 1 []) ∧
      ∀ key, key ∈ twoRecords.db.queryKeys.getD 1 [] ↔
        backendRecordKey 1 key ∈ twoRecords.db.keyed.records := by
  obtain ⟨answers, run⟩ := twoRecords_reached
  obtain ⟨asc, mem, -⟩ := cursor_exact newDatabase_opened run 1
  exact ⟨by decide +kernel, asc, mem⟩

end TwoRecords

end OctetDB
