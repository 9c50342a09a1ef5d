import OctetDB.Catalog.Ownership

/-!
# A restart keeps the topology

A database that is opened again reads its topology from the file that the last structural call
wrote. It is the same topology exactly if all names and type identities in it are valid UTF-8:
the checks of names look at spaces, separators and lengths, and the file cannot hold other bytes.
-/

namespace OctetDB

open Json

/-! ## Reading a stored topology -/

theorem persistCatalog_none (c : CatalogState) (d : Directory) :
    (persistCatalog c d none).1 = { d with catalog := some c.file, catalogTmp := none } := rfl

/-- The parts of an entry that a check fixes are valid texts. -/
theorem CatalogState.Sound.readable {c : CatalogState} (sound : c.Sound) (ints : c.Ints)
    (identity : Utf8.valid c.databaseID = true) (valid : c.NamesValid) : c.Readable := by
  refine ⟨identity, valid.buckets, valid.names, fun bucket name info get => ?_⟩
  have entry := sound.datasets bucket name info get
  have listed : bucket ∈ c.buckets := by
    rw [Std.ExtTreeMap.mem_iff_isSome_getElem?]
    cases present : c.buckets[bucket]? with
    | none => simp [CatalogState.dataset?, present] at get
    | some datasets => rfl
  obtain ⟨records, value⟩ := ints bucket name info get
  exact ⟨by rw [entry.bucketName]; exact valid.buckets bucket listed,
    by rw [entry.name_eq]; exact valid.names bucket name info get, by rw [entry.kind]; decide,
    by rw [entry.origin]; decide, valid.types bucket name info get, records, value⟩

/-- If a topology comes back from its file, its names and type identities are valid. -/
theorem CatalogState.Ints.namesValid {c : CatalogState} (ints : c.Ints) {identity : Identity}
    {fault : Option (Nat × String)} {keyed : KeyedDB} {d e : Directory}
    (file : d.catalog = some c.file)
    (loaded : loadOrCreateCatalog identity fault keyed d = .ok (c, e)) : c.NamesValid := by
  have envelope := Envelope.unmarshal_seal (show Utf8.valid catalogMagic = true by decide)
    ints.plain_toJson (by decide)
  simp only [loadOrCreateCatalog, file, CatalogState.file, envelope] at loaded
  rw [if_neg (by simp), if_neg (by simp)] at loaded
  split at loaded
  · cases loaded
  rename_i state read
  obtain ⟨_, -, same⟩ := bind_ok.mp loaded
  have valid := (ints.unmarshal_valid read).2
  simp only [Except.ok.injEq, Prod.mk.injEq] at same
  rwa [same.1] at valid

/-! ## Identities of databases -/

/-- The catalog in the directory, if there is one, was written for some topology. -/
def Directory.CatalogWritten (d : Directory) : Prop :=
  ∀ file, d.catalog = some file → ∃ c : CatalogState, c.Ints ∧ file = c.file

theorem openKeyed_catalog {options : KeyedOptions} {format : KeyedFormat} {d e : Directory}
    {keyed : KeyedDB} (h : openKeyed options format d = .ok (keyed, e)) :
    e.catalog = d.catalog := by
  obtain ⟨bounds, -, stored⟩ := bind_ok.mp h
  obtain ⟨marked, loaded, wal, format, -, -, rfl⟩ := openStorage_ok_iff.mp stored
  unfold ensureKeyedFormat at format
  split at format
  · split at format
    · cases format
    · cases format
      rfl
  · split at format
    · cases format
      rfl
    · cases format

theorem openCatalog_identity {handle : Nat} {identity : Identity} {fault : Option (Nat × String)}
    {options : KeyedOptions} {d d' : Directory} {db : Database} (written : d.CatalogWritten)
    (opened : openCatalog handle identity fault options d = .ok (db, d')) :
    Utf8.valid db.catalog.databaseID = true := by
  obtain ⟨keyed, d₁, state, recovered, loaded, rfl⟩ := openCatalog_ok opened
  unfold loadOrCreateCatalog at loaded
  split at loaded
  · split at loaded
    · cases loaded
    simp only at loaded
    split at loaded
    · cases loaded
    · cases loaded
      exact valid_hexText _
  · rename_i payload file
    rw [openKeyed_catalog recovered] at file
    obtain ⟨c, ints, rfl⟩ := written payload file
    have envelope := Envelope.unmarshal_seal (show Utf8.valid catalogMagic = true by decide)
      ints.plain_toJson (by decide)
    simp only [CatalogState.file, envelope] at loaded
    rw [if_neg (by simp), if_neg (by simp)] at loaded
    split at loaded
    · cases loaded
    rename_i decoded read
    obtain ⟨_, -, same⟩ := bind_ok.mp loaded
    cases same
    exact (ints.unmarshal_valid read).1

theorem Host.Change.databaseID {host : Host} {taken : Nat} {db : Database} {d : Directory}
    (change : host.Change taken db d) : db.catalog.databaseID = host.db.catalog.databaseID := by
  cases change with
  | call pending live effect =>
    cases effect with
    | install new done => cases new <;> rfl
    | _ => rfl
  | _ => rfl

theorem Host.Use.databaseID {allowed : Host → Host → Prop} {start last : Host}
    {answers : List Answer} (use : Host.Use allowed start answers last) :
    last.db.catalog.databaseID = start.db.catalog.databaseID := by
  induction use with
  | refl => rfl
  | step before step given allow ih => rw [step.change.databaseID, ih]

/-! ## The topology behind a restart -/

/-- The options stand for the entry of a dataset in a database with these bounds. -/
def DatasetInfo.Matches (info : DatasetInfo) (bounds : KeyedBounds) (options : DatasetOptions) :
    Prop :=
  ∃ normalized, normalizeDatasetOptions options bounds = .ok normalized ∧
    info.kind = normalized.kind ∧ info.typeIdentity = normalized.typeIdentity ∧
    info.bounds = ⟨normalized.maxRecords, normalized.maxValueBytes⟩

theorem Database.openDataset_existing {db : Database} {d : Directory} {env : Environment}
    {bucket : Bucket} {name : Bytes} {options : DatasetOptions} {info : DatasetInfo}
    (get : db.catalog.dataset? bucket.name name = some info)
    (same : info.Matches db.keyed.options options) :
    db.perform d env (.dataset bucket name options) =
      ⟨db, d, .ok (.dataset ⟨db.handle, info⟩)⟩ := by
  obtain ⟨normalized, normal, kind, type, bounds⟩ := same
  rw [CatalogState.dataset?_eq_getD] at get
  simp only [perform, openDataset, normal, get]
  rw [if_neg (by simp [kind, type, bounds])]

/-- The database that opens the stored topology: it has the topology, and the calls that made its
buckets and datasets find them, with the same entries. -/
structure Restored (db : Database) (d : Directory) (state : CatalogState) : Prop where
  same : state = db.catalog
  buckets : ∀ env, ∀ bucket ∈ db.catalog.buckets,
    ({ db with catalog := state }.perform d env (.bucket bucket)).reply =
      .ok (.bucket ⟨db.handle, bucket⟩)
  datasets : ∀ env (bucket : Bucket) name info options,
    db.catalog.dataset? bucket.name name = some info →
    info.Matches db.keyed.options options →
    ({ db with catalog := state }.perform d env (.dataset bucket name options)).reply =
      .ok (.dataset ⟨db.handle, info⟩)

theorem restored_self (db : Database) (d : Directory) : Restored db d db.catalog := by
  refine ⟨rfl, fun env bucket mem => ?_, fun env bucket name info options get same => ?_⟩
  · simp only [Database.perform, Database.openBucket, if_pos mem]
  · rw [Database.openDataset_existing get same]

/-- A stored topology is restored exactly if its names and type identities are valid UTF-8. -/
theorem catalog_restored_iff {handle : Nat} {identity : Identity} {fault : Option (Nat × String)}
    {options : KeyedOptions} {d d' : Directory} {db : Database} {last : Host}
    {answers : List Answer} (written : d.CatalogWritten)
    (opened : openCatalog handle identity fault options d = .ok (db, d'))
    (use : Host.Use (fun host _ => host.Room) { db := db, dir := d' } answers last)
    (ints : last.db.catalog.Ints) (identity' : Identity) (fault' : Option (Nat × String))
    (stored : Directory) :
    (∃ state e, loadOrCreateCatalog identity' fault' last.db.keyed
        (persistCatalog last.db.catalog stored none).1 = .ok (state, e) ∧
      Restored last.db e state) ↔ last.db.catalog.NamesValid := by
  obtain ⟨sound, owns, -⟩ := (use.proper ⟨openCatalog_proper opened, by simp⟩).db
  rw [persistCatalog_none]
  constructor
  · rintro ⟨state, e, loaded, restored⟩
    obtain rfl := restored.same
    exact ints.namesValid rfl loaded
  · intro valid
    have identity : Utf8.valid last.db.catalog.databaseID = true := by
      rw [use.databaseID]
      exact openCatalog_identity written opened
    have loaded := @CatalogState.Readable.loadOrCreateCatalog_file _
      (sound.readable ints identity valid) identity' fault' last.db.keyed
      { stored with catalog := some last.db.catalog.file, catalogTmp := none } rfl
    rw [validateCatalogState_ok_iff.mpr ⟨sound, owns⟩] at loaded
    exact ⟨_, _, loaded, restored_self _ _⟩

theorem oneDataset_restored : ∃ state e,
    loadOrCreateCatalog zeroIdentity none oneDataset.db.keyed
      (persistCatalog oneDataset.db.catalog {} none).1 = .ok (state, e) ∧
    Restored oneDataset.db e state := by
  have listed : bucketInfos oneDataset.db.catalog.buckets.toList = [firstDataset.info] := by
    decide +kernel
  have only (bucket name : Bytes) (info : DatasetInfo)
      (get : oneDataset.db.catalog.dataset? bucket name = some info) :
      info = firstDataset.info := by
    have mem := (oneDataset.db.catalog.mem_bucketInfos info).mpr ⟨bucket, name, get⟩
    rwa [listed, List.mem_singleton] at mem
  obtain ⟨answers, use⟩ := oneDataset_used
  have sound := (use.proper ⟨openCatalog_proper newDatabase_opened, by simp [newDatabase]⟩).db.sound
  have ints : oneDataset.db.catalog.Ints := fun bucket name info get => by
    rw [only bucket name info get]
    exact ⟨⟨by decide, by decide⟩, by decide, by decide⟩
  refine (catalog_restored_iff (by simp [Directory.CatalogWritten]) newDatabase_opened use ints
    zeroIdentity none {}).mpr
    ⟨fun bucket mem => ?_, fun bucket name info get => ?_, fun bucket name info get => ?_⟩
  · have keys : oneDataset.db.catalog.buckets.keys = [ascii "b"] := by decide +kernel
    rw [← Std.ExtTreeMap.mem_keys, keys, List.mem_singleton] at mem
    rw [mem]
    decide
  · rw [← (sound.datasets bucket name info get).name_eq, only bucket name info get]
    decide
  · rw [only bucket name info get]
    decide

section InvalidNames

def firstInvalid : Host := (newDatabase.perform (.bucket [0xFE]) {}).1

def secondInvalid : Host := (firstInvalid.perform (.bucket [0xFF]) {}).1

def thirdInvalid : Host := (secondInvalid.perform (.dataset ⟨0, [0xFE]⟩ (ascii "d") {}) {}).1

/-- Two buckets under names of one byte each, neither of them valid UTF-8, with a dataset each. -/
def invalidNames : Host := (thirdInvalid.perform (.dataset ⟨0, [0xFF]⟩ (ascii "d") {}) {}).1

theorem invalidNames_used : ∃ answers,
    Host.Use (fun host _ => host.Room) newDatabase answers invalidNames := by
  have first := @Host.Use.call (fun host _ => host.Room) newDatabase newDatabase [] .live .refl
    (.bucket [0xFE]) {} rfl (by decide +kernel) trivial (Host.room_of_next (by decide +kernel))
    (Host.room_of_next (by decide +kernel))
  have second := @Host.Use.call (fun host _ => host.Room) newDatabase firstInvalid _ .live first
    (.bucket [0xFF]) {} rfl (by decide +kernel) trivial (Host.room_of_next (by decide +kernel))
    (Host.room_of_next (by decide +kernel))
  have third := @Host.Use.call (fun host _ => host.Room) newDatabase secondInvalid _ .live second
    (.dataset ⟨0, [0xFE]⟩ (ascii "d") {}) {} rfl (by decide +kernel) (List.mem_cons_self)
    (Host.room_of_next (by decide +kernel)) (Host.room_of_next (by decide +kernel))
  exact ⟨_, @Host.Use.call (fun host _ => host.Room) newDatabase thirdInvalid _ .live third
    (.dataset ⟨0, [0xFF]⟩ (ascii "d") {}) {} rfl (by decide +kernel)
    (List.mem_cons_of_mem _ List.mem_cons_self)
    (Host.room_of_next (by decide +kernel)) (Host.room_of_next (by decide +kernel))⟩

set_option maxRecDepth 20000 in
/-- The names are accepted, and the buckets and datasets are there. Behind a restart there is one
bucket, under a third name, with the second dataset; no bucket is found under its name. -/
theorem invalid_names_merge :
    (∃ answers, Host.Use (fun host _ => host.Room) newDatabase answers invalidNames) ∧
    (invalidNames.db.catalog.dataset? [0xFE] (ascii "d")).map (·.id) = some 1 ∧
    (invalidNames.db.catalog.dataset? [0xFF] (ascii "d")).map (·.id) = some 2 ∧
    ∃ state e, loadOrCreateCatalog zeroIdentity none invalidNames.db.keyed
        (persistCatalog invalidNames.db.catalog {} none).1 = .ok (state, e) ∧
      state.buckets.keys = [[0xEF, 0xBF, 0xBD]] ∧
      (bucketInfos state.buckets.toList).map (·.id) = [2] := by
  have loaded : (loadOrCreateCatalog zeroIdentity none invalidNames.db.keyed
        (persistCatalog invalidNames.db.catalog {} none).1).toOption.map
      (fun s => (s.1.buckets.keys, (bucketInfos s.1.buckets.toList).map (·.id))) =
      some ([[0xEF, 0xBF, 0xBD]], [2]) := by decide +kernel
  obtain ⟨⟨state, e⟩, found, same⟩ := Option.map_eq_some_iff.mp loaded
  obtain ⟨keys, ids⟩ := Prod.mk.inj same
  exact ⟨invalidNames_used, by decide +kernel, by decide +kernel, state, e,
    toOption_eq_some.mp found, keys, ids⟩

end InvalidNames

end OctetDB
