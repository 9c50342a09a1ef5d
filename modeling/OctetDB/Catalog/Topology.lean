import OctetDB.Catalog.Open
import OctetDB.Lib.Fold
import OctetDB.Lib.Keys

/-!
# What recovery asks of a topology

`validateCatalogState` walks over the buckets, the datasets and the records. It accepts exactly
if the entries of the topology are proper, no two datasets share an identity, and every record
belongs to a dataset and is within its bounds.
-/

namespace OctetDB

/-! ## Proper topologies -/

def CatalogState.dataset? (c : CatalogState) (bucket name : Bytes) : Option DatasetInfo :=
  (c.buckets[bucket]?).bind (·[name]?)

/-- A proper entry under a name of a bucket. -/
structure DatasetInfo.Sound (next : UInt64) (bucket name : Bytes) (info : DatasetInfo) : Prop where
  named : validCatalogName "dataset" name = .ok ()
  nonzero : info.id ≠ 0
  below : info.id < next
  bucketName : info.bucketName = bucket
  name_eq : info.name = name
  kind : info.kind = keyedJSON
  origin : info.origin = goCatalog
  records_pos : 0 < info.bounds.maxRecords
  value_pos : 0 < info.bounds.maxValueBytes

structure CatalogState.Sound (c : CatalogState) : Prop where
  identity : c.databaseID ≠ []
  next : c.nextDatasetID ≠ 0
  buckets : ∀ bucket ∈ c.buckets, validCatalogName "bucket" bucket = .ok ()
  datasets : ∀ bucket name info, c.dataset? bucket name = some info →
    info.Sound c.nextDatasetID bucket name
  unique : ∀ bucket name info bucket' name' info', c.dataset? bucket name = some info →
    c.dataset? bucket' name' = some info' → info.id = info'.id → bucket = bucket' ∧ name = name'

def recordCount (records : ByteMap Bytes) (id : UInt64) : Nat :=
  countKeys (fun key => backendDatasetID key == some id) records

/-- Every record belongs to a dataset of the topology, and every dataset is within its bounds. -/
structure CatalogState.Owns (c : CatalogState) (records : ByteMap Bytes) : Prop where
  record : ∀ (key value : Bytes), records[key]? = some value →
    ∃ bucket name info, c.dataset? bucket name = some info ∧
      backendDatasetID key = some info.id ∧ value.length ≤ info.bounds.maxValueBytes
  count : ∀ bucket name info, c.dataset? bucket name = some info →
    recordCount records info.id ≤ info.bounds.maxRecords

/-! ## The loop over the datasets -/

/-- The index of the datasets visited so far: no two share an identity. -/
structure Indexed (ids : WordMap DatasetInfo) (infos : List DatasetInfo) : Prop where
  nodup : (infos.map (·.id)).Nodup
  get_iff : ∀ id info, ids[id]? = some info ↔ info ∈ infos ∧ info.id = id

theorem Indexed.empty : Indexed ∅ [] := ⟨List.nodup_nil, by simp⟩

variable {ids : WordMap DatasetInfo} {infos : List DatasetInfo} {c : CatalogState}

theorem Indexed.mem_iff (h : Indexed ids infos) (id : UInt64) :
    id ∈ ids ↔ id ∈ infos.map (·.id) := by
  rw [Std.ExtTreeMap.mem_iff_isSome_getElem?, Option.isSome_iff_exists, List.mem_map]
  simp only [h.get_iff]

theorem Indexed.insert (h : Indexed ids infos) {info : DatasetInfo}
    (fresh : info.id ∉ infos.map (·.id)) :
    Indexed (ids.insert info.id info) (infos ++ [info]) := by
  refine ⟨?_, fun id other => ?_⟩
  · rw [List.map_append, List.nodup_append]
    refine ⟨h.nodup, by simp, ?_⟩
    rintro a ha b hb rfl
    obtain rfl : a = info.id := by simpa using hb
    exact fresh ha
  · rw [Std.ExtTreeMap.getElem?_insert, List.mem_append, List.mem_singleton]
    by_cases same : info.id = id
    · subst same
      simp only [Std.compare_self, if_true, Option.some_inj]
      constructor
      · rintro rfl
        exact ⟨.inr rfl, rfl⟩
      · rintro ⟨mem | rfl, eq⟩
        · exact absurd (List.mem_map.mpr ⟨other, mem, eq⟩) fresh
        · rfl
    · have differ : ¬ compare info.id id = .eq := by simpa using same
      rw [if_neg differ, h.get_iff]
      constructor
      · exact fun ⟨mem, eq⟩ => ⟨.inl mem, eq⟩
      · rintro ⟨mem | rfl, eq⟩
        · exact ⟨mem, eq⟩
        · exact absurd eq same

theorem validateDataset_ok_iff {next : UInt64} {bucket : Bytes} {ids' : WordMap DatasetInfo}
    {entry : Bytes × DatasetInfo} : validateDataset next bucket ids entry = .ok ids' ↔
      entry.2.Sound next bucket entry.1 ∧ entry.2.id ∉ ids ∧
        ids' = ids.insert entry.2.id entry.2 := by
  unfold validateDataset
  constructor
  · intro h
    split at h
    · cases h
    rename_i proper
    split at h
    · cases h
    rename_i fresh
    cases h
    simp only [not_or, ne_eq, not_not, ge_iff_le, UInt64.not_le, not_le] at proper
    obtain ⟨named, nonzero, below, bucketName, name, kind, origin, records, value⟩ := proper
    exact ⟨⟨named, nonzero, below, bucketName, name, kind, origin, records, value⟩, fresh, rfl⟩
  · rintro ⟨⟨named, nonzero, below, bucketName, name, kind, origin, records, value⟩, fresh, rfl⟩
    rw [if_neg, if_neg fresh]
    simp only [not_or, ne_eq, not_not, ge_iff_le, UInt64.not_le, not_le]
    exact ⟨named, nonzero, below, bucketName, name, kind, origin, records, value⟩

theorem foldlM_validateDataset_ok_iff {next : UInt64} {bucket : Bytes}
    {ids ids' : WordMap DatasetInfo} {infos : List DatasetInfo} (start : Indexed ids infos)
    {entries : List (Bytes × DatasetInfo)} :
    entries.foldlM (validateDataset next bucket) ids = .ok ids' ↔
      (∀ entry ∈ entries, entry.2.Sound next bucket entry.1) ∧
        Indexed ids' (infos ++ entries.map Prod.snd) := by
  induction entries generalizing ids infos with
  | nil =>
    rw [foldlM_nil_ok]
    simp only [List.not_mem_nil, false_implies, implies_true, List.map_nil, List.append_nil,
      true_and]
    constructor
    · rintro rfl
      exact start
    · intro done
      refine Std.ExtTreeMap.ext_getElem? fun id => Option.ext fun info => ?_
      rw [start.get_iff, done.get_iff]
  | cons entry entries ih =>
    rw [foldlM_cons_ok, List.forall_mem_cons, List.map_cons]
    constructor
    · rintro ⟨mid, first, later⟩
      obtain ⟨sound, fresh, rfl⟩ := validateDataset_ok_iff.mp first
      rw [start.mem_iff] at fresh
      obtain ⟨sounds, done⟩ := (ih (start.insert fresh)).mp later
      exact ⟨⟨sound, sounds⟩, by simpa using done⟩
    · rintro ⟨⟨sound, sounds⟩, done⟩
      have fresh : entry.2.id ∉ infos.map (·.id) := by
        have nodup := done.nodup
        rw [List.map_append, List.nodup_append] at nodup
        exact fun mem => nodup.2.2 _ mem entry.2.id (by simp) rfl
      refine ⟨_, validateDataset_ok_iff.mpr ⟨sound, by rwa [start.mem_iff], rfl⟩, ?_⟩
      exact (ih (start.insert fresh)).mpr ⟨sounds, by simpa using done⟩

theorem exists_indexed (nodup : (infos.map (·.id)).Nodup) :
    ∃ ids, Indexed ids infos := by
  induction infos using List.reverseRecOn with
  | nil => exact ⟨∅, .empty⟩
  | append_singleton infos info ih =>
    rw [List.map_append, List.nodup_append] at nodup
    obtain ⟨ids, indexed⟩ := ih nodup.1
    exact ⟨_, indexed.insert fun mem => nodup.2.2 _ mem info.id (by simp) rfl⟩

def bucketInfos (buckets : List (Bytes × CatalogBucket)) : List DatasetInfo :=
  buckets.flatMap fun entry => entry.2.toList.map Prod.snd

theorem foldlM_validateBucket_ok_iff {next : UInt64} {ids ids' : WordMap DatasetInfo}
    {infos : List DatasetInfo} (start : Indexed ids infos)
    {buckets : List (Bytes × CatalogBucket)} :
    (buckets.map fun entry => (entry.1, some entry.2)).foldlM (validateBucket next) ids = .ok ids' ↔
      (∀ entry ∈ buckets, validCatalogName "bucket" entry.1 = .ok () ∧
        ∀ dataset ∈ entry.2.toList, dataset.2.Sound next entry.1 dataset.1) ∧
        Indexed ids' (infos ++ bucketInfos buckets) := by
  induction buckets generalizing ids infos with
  | nil =>
    have datasets := @foldlM_validateDataset_ok_iff next [] ids ids' infos start []
    simpa [bucketInfos] using datasets
  | cons entry buckets ih =>
    rw [List.map_cons, foldlM_cons_ok, List.forall_mem_cons, bucketInfos, List.flatMap_cons,
      ← bucketInfos, ← List.append_assoc]
    simp only [validateBucket]
    cases named : validCatalogName "bucket" entry.1 with
    | error err => simp
    | ok =>
      simp only [foldlM_validateDataset_ok_iff start, true_and]
      constructor
      · rintro ⟨mid, ⟨sounds, indexed⟩, later⟩
        obtain ⟨rest, done⟩ := (ih indexed).mp later
        exact ⟨⟨sounds, rest⟩, done⟩
      · rintro ⟨⟨sounds, rest⟩, done⟩
        have nodup := done.nodup
        rw [List.map_append, List.nodup_append] at nodup
        obtain ⟨mid, indexed⟩ := exists_indexed nodup.1
        exact ⟨mid, ⟨sounds, indexed⟩, (ih indexed).mpr ⟨rest, done⟩⟩

/-! ## The loop over the records -/

/-- The number of records of a dataset among those visited. -/
def visitedCount (entries : List (Bytes × Bytes)) (id : UInt64) : Nat :=
  entries.countP fun entry => backendDatasetID entry.1 == some id

theorem validateRecord_ok_iff {counts counts' : WordMap Nat} {entry : Bytes × Bytes} :
    validateRecord ids counts entry = .ok counts' ↔
      ∃ id info, backendDatasetID entry.1 = some id ∧ ids[id]? = some info ∧
        entry.2.length ≤ info.bounds.maxValueBytes ∧
        ((counts.getD id 0 + 1 : Nat) : Int) ≤ info.bounds.maxRecords ∧
        counts' = counts.insert id (counts.getD id 0 + 1) := by
  unfold validateRecord
  constructor
  · intro h
    split at h
    · cases h
    rename_i id named
    split at h
    · cases h
    rename_i info known
    split at h
    · cases h
    split at h
    · cases h
    cases h
    exact ⟨id, info, named, known, by omega, by omega, rfl⟩
  · rintro ⟨id, info, named, known, small, room, rfl⟩
    simp only [named, known]
    rw [if_neg (by omega), if_neg (by omega)]

theorem getD_foldlM_validateRecord {counts counts' : WordMap Nat} {entries : List (Bytes × Bytes)}
    (h : entries.foldlM (validateRecord ids) counts = .ok counts') (id : UInt64) :
    counts'.getD id 0 = counts.getD id 0 + visitedCount entries id := by
  induction entries generalizing counts with
  | nil =>
    obtain rfl := foldlM_nil_ok.mp h
    simp [visitedCount]
  | cons entry entries ih =>
    obtain ⟨mid, first, later⟩ := foldlM_cons_ok.mp h
    obtain ⟨id', info, named, -, -, -, rfl⟩ := validateRecord_ok_iff.mp first
    rw [ih later, visitedCount, visitedCount, List.countP_cons, named]
    by_cases same : id' = id
    · simp only [same, Std.ExtTreeMap.getD_insert_self, beq_self_eq_true, if_true]
      omega
    · simp [same, Std.ExtTreeMap.getD_insert]

/-- The loop over the records ends well if every record has a known dataset and fits it, and the
datasets of the records are within their bounds. -/
theorem exists_foldlM_validateRecord_iff {entries : List (Bytes × Bytes)} :
    (∃ counts, entries.foldlM (validateRecord ids) ∅ = .ok counts) ↔
      ∀ entry ∈ entries, ∃ id info, backendDatasetID entry.1 = some id ∧ ids[id]? = some info ∧
        entry.2.length ≤ info.bounds.maxValueBytes ∧
        visitedCount entries id ≤ info.bounds.maxRecords := by
  -- The last record is the one whose count is checked with all records behind it.
  induction entries using List.reverseRecOn with
  | nil => exact ⟨by simp, fun _ => ⟨∅, rfl⟩⟩
  | append_singleton entries last ih =>
    have count (id : UInt64) : visitedCount (entries ++ [last]) id =
        visitedCount entries id + if backendDatasetID last.1 == some id then 1 else 0 := by
      simp [visitedCount, List.countP_append, List.countP_cons]
    simp only [foldlM_append_ok, foldlM_cons_ok, foldlM_nil_ok, validateRecord_ok_iff]
    constructor
    · rintro ⟨_, mid, before, _, ⟨id, info, named, known, small, room, rfl⟩, rfl⟩
      have seen := getD_foldlM_validateRecord before id
      rw [Std.ExtTreeMap.getD_empty, Nat.zero_add] at seen
      rw [seen] at room
      have sounds := ih.mp ⟨mid, before⟩
      intro entry mem
      rcases List.mem_append.mp mem with mem | mem
      · obtain ⟨id', info', named', known', small', room'⟩ := sounds entry mem
        refine ⟨id', info', named', known', small', ?_⟩
        rw [count, named]
        by_cases same : id = id'
        · subst same
          obtain rfl : info = info' := by simpa [known] using known'
          simpa using room
        · simpa [same] using room'
      · obtain rfl := List.mem_singleton.mp mem
        refine ⟨id, info, named, known, small, ?_⟩
        rw [count, named]
        simpa using room
    · intro sounds
      obtain ⟨id, info, named, known, small, room⟩ := sounds last (by simp)
      obtain ⟨mid, before⟩ := ih.mpr fun entry mem => by
        obtain ⟨id', info', named', known', small', room'⟩ := sounds entry (by simp [mem])
        rw [count] at room'
        exact ⟨id', info', named', known', small', by omega⟩
      refine ⟨_, mid, before, _, ⟨id, info, named, known, small, ?_, rfl⟩, rfl⟩
      have seen := getD_foldlM_validateRecord before id
      rw [Std.ExtTreeMap.getD_empty, Nat.zero_add] at seen
      rw [count, named] at room
      rw [seen]
      simpa using room

/-! ## The whole check -/

/-- The datasets of a topology are those in its buckets. -/
theorem CatalogState.mem_bucketInfos (c : CatalogState) (info : DatasetInfo) :
    info ∈ bucketInfos c.buckets.toList ↔ ∃ bucket name, c.dataset? bucket name = some info := by
  simp only [bucketInfos, List.mem_flatMap, List.mem_map, Prod.exists, exists_eq_right,
    Std.ExtTreeMap.mem_toList_iff_getElem?_eq_some, CatalogState.dataset?, Option.bind_eq_some_iff]
  constructor
  · rintro ⟨bucket, datasets, listed, name, get⟩
    exact ⟨bucket, name, datasets, listed, get⟩
  · rintro ⟨bucket, name, datasets, listed, get⟩
    exact ⟨bucket, datasets, listed, name, get⟩

theorem visitedCount_toList (records : ByteMap Bytes) (id : UInt64) :
    visitedCount records.toList id = recordCount records id := by
  rw [visitedCount, recordCount, countKeys, ← Std.ExtTreeMap.map_fst_toList_eq_keys,
    List.countP_map]
  rfl

/-- Entries that are proper and have identities of their own are listed once. -/
theorem CatalogState.Sound.nodup (h : c.Sound) :
    ((bucketInfos c.buckets.toList).map (·.id)).Nodup := by
  have entry (bucket : Bytes) (datasets : CatalogBucket) (name : Bytes) (info : DatasetInfo)
      (mem : (bucket, datasets) ∈ c.buckets.toList) (get : (name, info) ∈ datasets.toList) :
      info.Sound c.nextDatasetID bucket name := by
    rw [Std.ExtTreeMap.mem_toList_iff_getElem?_eq_some] at mem get
    exact h.datasets bucket name info (by simp [CatalogState.dataset?, mem, get])
  have once : (bucketInfos c.buckets.toList).Nodup := by
    refine List.nodup_flatMap.mpr ⟨fun ⟨bucket, datasets⟩ mem => ?_, ?_⟩
    · refine List.Nodup.map_on ?_ ?_
      · rintro ⟨name, info⟩ first ⟨name', info'⟩ second rfl
        rw [← (entry _ _ _ _ mem first).name_eq, (entry _ _ _ _ mem second).name_eq]
      · exact Std.ExtTreeMap.distinct_keys_toList.imp fun differ same => by simp [same] at differ
    · refine List.Pairwise.imp_of_mem ?_ Std.ExtTreeMap.distinct_keys_toList
      rintro ⟨bucket, datasets⟩ ⟨bucket', datasets'⟩ mem mem' differ
      simp only [Function.onFun, List.disjoint_left, List.mem_map, Prod.exists, exists_eq_right]
      rintro info ⟨name, first⟩ ⟨name', second⟩
      have same := (entry _ _ _ _ mem first).bucketName
      rw [(entry _ _ _ _ mem' second).bucketName] at same
      simp [same] at differ
  refine once.map_on fun info mem info' mem' same => ?_
  obtain ⟨bucket, name, get⟩ := (c.mem_bucketInfos info).mp mem
  obtain ⟨bucket', name', get'⟩ := (c.mem_bucketInfos info').mp mem'
  obtain ⟨rfl, rfl⟩ := h.unique _ _ _ _ _ _ get get' same
  simpa [get] using get'

/-- The records that the check accepts are those the topology owns. -/
theorem owns_iff (sound : c.Sound) (indexed : Indexed ids (bucketInfos c.buckets.toList))
    {records : ByteMap Bytes} :
    (∃ counts, records.toList.foldlM (validateRecord ids) ∅ = .ok counts) ↔ c.Owns records := by
  have known (id : UInt64) (info : DatasetInfo) : ids[id]? = some info ↔
      (∃ bucket name, c.dataset? bucket name = some info) ∧ info.id = id := by
    rw [indexed.get_iff, c.mem_bucketInfos]
  simp only [exists_foldlM_validateRecord_iff, visitedCount_toList, Prod.forall,
    Std.ExtTreeMap.mem_toList_iff_getElem?_eq_some]
  constructor
  · intro checked
    refine ⟨fun key value get => ?_, fun bucket name info listed => ?_⟩
    · obtain ⟨id, info, named, index, small, -⟩ := checked key value get
      obtain ⟨⟨bucket, name, listed⟩, rfl⟩ := (known _ _).mp index
      exact ⟨bucket, name, info, listed, named, small⟩
    · by_cases some_ : ∃ key ∈ records, backendDatasetID key = some info.id
      · obtain ⟨key, mem, named⟩ := some_
        obtain ⟨value, get⟩ := Option.isSome_iff_exists.mp
          (Std.ExtTreeMap.mem_iff_isSome_getElem?.mp mem)
        obtain ⟨id, info', named', index, -, room⟩ := checked key value get
        obtain rfl : info.id = id := by simpa [named] using named'
        have same := (known _ _).mpr ⟨⟨bucket, name, listed⟩, rfl⟩
        obtain rfl : info = info' := by simpa [same] using index
        exact room
      · -- A dataset without records has room.
        have none : recordCount records info.id = 0 := by
          rw [recordCount, countKeys, List.countP_eq_zero]
          intro key mem holds
          exact some_ ⟨key, Std.ExtTreeMap.mem_keys.mp mem, by simpa using holds⟩
        have pos := (sound.datasets _ _ _ listed).records_pos
        rw [none]
        omega
  · intro owns key value get
    obtain ⟨bucket, name, info, listed, named, small⟩ := owns.record key value get
    exact ⟨info.id, info, named, (known _ _).mpr ⟨⟨bucket, name, listed⟩, rfl⟩, small,
      owns.count _ _ _ listed⟩

/-- Recovery accepts a topology without nil maps exactly if it is proper and owns the records. -/
theorem validateCatalogState_ok_iff {keyed : KeyedDB} :
    validateCatalogState c.decoded keyed = .ok () ↔ c.Sound ∧ c.Owns keyed.records := by
  have datasets (next : UInt64) : (∀ entry ∈ c.buckets.toList,
        validCatalogName "bucket" entry.1 = .ok () ∧
          ∀ dataset ∈ entry.2.toList, dataset.2.Sound next entry.1 dataset.1) ↔
      (∀ bucket ∈ c.buckets, validCatalogName "bucket" bucket = .ok ()) ∧
        ∀ bucket name info, c.dataset? bucket name = some info → info.Sound next bucket name := by
    simp only [Prod.forall, Std.ExtTreeMap.mem_toList_iff_getElem?_eq_some, CatalogState.dataset?,
      Option.bind_eq_some_iff, Std.ExtTreeMap.mem_iff_isSome_getElem?, Option.isSome_iff_exists]
    constructor
    · intro all
      exact ⟨fun bucket ⟨entry, get⟩ => (all bucket entry get).1,
        fun bucket name info ⟨entry, get, listed⟩ => (all bucket entry get).2 name info listed⟩
    · intro ⟨buckets, infos⟩ bucket entry get
      exact ⟨buckets bucket ⟨entry, get⟩, fun name info listed => infos _ _ _ ⟨entry, get, listed⟩⟩
  have loop {ids : WordMap DatasetInfo} := @foldlM_validateBucket_ok_iff c.nextDatasetID ∅ ids []
    .empty c.buckets.toList
  simp only [List.nil_append, datasets] at loop
  simp only [validateCatalogState, CatalogState.decoded, Std.ExtTreeMap.toList_map]
  constructor
  · intro h
    split at h
    · cases h
    rename_i proper
    obtain ⟨ids, visited, h⟩ := bind_ok.mp h
    obtain ⟨counts, checked, -⟩ := bind_ok.mp h
    obtain ⟨⟨buckets, infos⟩, indexed⟩ := loop.mp visited
    have sound : c.Sound := by
      refine ⟨by tauto, by tauto, buckets, infos, ?_⟩
      intro bucket name info bucket' name' info' get get' same
      have eq : info = info' := List.inj_on_of_nodup_map indexed.nodup
        ((c.mem_bucketInfos _).mpr ⟨_, _, get⟩) ((c.mem_bucketInfos _).mpr ⟨_, _, get'⟩) same
      subst eq
      exact ⟨by rw [← (infos _ _ _ get).bucketName, (infos _ _ _ get').bucketName],
        by rw [← (infos _ _ _ get).name_eq, (infos _ _ _ get').name_eq]⟩
    exact ⟨sound, (owns_iff sound indexed).mp ⟨counts, checked⟩⟩
  · rintro ⟨sound, owns⟩
    rw [if_neg (by simp [sound.identity, sound.next])]
    obtain ⟨ids, indexed⟩ := exists_indexed sound.nodup
    obtain ⟨counts, checked⟩ := (owns_iff sound indexed).mpr owns
    exact bind_ok.mpr ⟨ids, loop.mpr ⟨⟨sound.buckets, sound.datasets⟩, indexed⟩,
      bind_ok.mpr ⟨counts, checked, rfl⟩⟩

theorem some_of_foldlM_validateBucket {next : UInt64} {ids' : WordMap DatasetInfo}
    {buckets : List (Bytes × Option CatalogBucket)}
    (h : buckets.foldlM (validateBucket next) ids = .ok ids') :
    ∀ entry ∈ buckets, entry.2 ≠ none := by
  induction buckets generalizing ids with
  | nil => simp
  | cons entry buckets ih =>
    obtain ⟨mid, first, later⟩ := foldlM_cons_ok.mp h
    rw [List.forall_mem_cons]
    refine ⟨fun nil => ?_, ih later⟩
    simp only [validateBucket, nil] at first
    split at first
    · contradiction
    · cases first

/-- A topology that is accepted has no nil maps. -/
theorem decoded_toState {state : DecodedCatalog} {keyed : KeyedDB}
    (h : validateCatalogState state keyed = .ok ()) : state.toState.decoded = state := by
  obtain ⟨identity, next, buckets⟩ := state
  cases buckets with
  | none => cases h
  | some buckets =>
    simp only [validateCatalogState] at h
    split at h
    · cases h
    obtain ⟨ids, visited, -⟩ := bind_ok.mp h
    have filled := some_of_foldlM_validateBucket visited
    simp only [CatalogState.decoded, DecodedCatalog.toState, Option.getD_some,
      DecodedCatalog.mk.injEq, true_and, Option.some_inj]
    refine Std.ExtTreeMap.ext_getElem? fun name => ?_
    rw [Std.ExtTreeMap.getElem?_map, Std.ExtTreeMap.getElem?_map]
    cases get : buckets[name]? with
    | none => rfl
    | some bucket =>
      cases bucket with
      | some datasets => rfl
      | none => exact absurd rfl (filled (name, none) (by simpa using get))

end OctetDB
