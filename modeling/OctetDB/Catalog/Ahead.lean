import OctetDB.Catalog.Image

/-!
# The catalog is ahead of the data

A structural call returns a handle only after the catalog with the new entry is stored, and
records are written with handles. So whenever a database crashes, the catalog in its directory
has every dataset of every record that recovery reads, and more at most.
-/

namespace OctetDB

/-! ## Texts and sizes -/

def KeyedOptions.InRange (o : KeyedOptions) : Prop :=
  o.maxRecords < 2 ^ 63 ∧ o.maxValueBytes < 2 ^ 63

def KeyedBounds.InRange (b : KeyedBounds) : Prop := b.maxRecords < 2 ^ 63 ∧ b.maxValueBytes < 2 ^ 63

def DatasetOptions.InRange (o : DatasetOptions) : Prop :=
  o.maxRecords < 2 ^ 63 ∧ o.maxValueBytes < 2 ^ 63

theorem KeyedOptions.InRange.normalize {o : KeyedOptions} (h : o.InRange) {b : KeyedBounds}
    (normal : normalizeKeyedOptions o = .ok b) : b.InRange := by
  obtain ⟨records, value⟩ := h
  unfold normalizeKeyedOptions at normal
  split at normal
  · cases normal
  split at normal
  · cases normal
  cases normal
  simp only [KeyedBounds.InRange, orDefault]
  constructor <;> split <;> omega

theorem DatasetOptions.InRange.normalize {o n : DatasetOptions} (h : o.InRange) {b : KeyedBounds}
    (range : b.InRange) (normal : normalizeDatasetOptions o b = .ok n) :
    FitsInt n.maxRecords ∧ FitsInt n.maxValueBytes ∧ n.typeIdentity = o.typeIdentity := by
  obtain ⟨-, records, value⟩ := normalizeDatasetOptions_ok normal
  obtain ⟨low, low'⟩ := h
  obtain ⟨bound, bound'⟩ := range
  unfold normalizeDatasetOptions at normal
  unfold FitsInt
  grind

/-- The names and the type identity in a call are valid UTF-8, and its bounds are Go integers. -/
def Call.Textual : Call → Prop
  | .bucket name => Utf8.valid name = true
  | .dataset _ name options =>
    Utf8.valid name = true ∧ Utf8.valid options.typeIdentity = true ∧ options.InRange
  | _ => True

/-- The keys that the callback writes are valid UTF-8. -/
def Submission.Textual (submission : Submission) : Prop :=
  match submission.mutation with
  | .catalog (some program) => program.Touches fun _ key => Utf8.valid key = true
  | _ => True

/-- All bytes of all identities are ASCII. -/
def CatalogState.SmallIDs (c : CatalogState) : Prop :=
  ∀ bucket name info, c.dataset? bucket name = some info → ∀ b ∈ putUint64BE info.id, b < 0x80

/-- The texts of a step, and the identities in the catalog it leaves. -/
structure Host.Textual (host next : Host) : Prop where
  waiting : ∀ call ∈ next.waiting, call.Textual
  taken : ∀ submission ∈ host.queue.take (host.taken next), submission.Textual
  stored : ∀ c : CatalogState, c.Readable → next.dir.catalog = some c.file → c.SmallIDs

theorem TxProgram.Touches.and {P Q : Dataset → Bytes → Prop} {program : TxProgram}
    (p : program.Touches P) (q : program.Touches Q) :
    program.Touches fun dataset key => P dataset key ∧ Q dataset key := by
  induction program with
  | get dataset key next ih => exact fun answer => ih answer (p answer) (q answer)
  | put dataset key value next ih | delete dataset key next ih =>
    exact ⟨⟨p.1, q.1⟩, fun answer => ih answer (p.2 answer) (q.2 answer)⟩
  | done outcome => trivial

variable {keyed : KeyedDB} {options : KeyedOptions}

theorem valid_keys_decided {db : Database} {program : TxProgram} {id : Bytes}
    {record : KeyedWALRecord} (small : db.catalog.SmallIDs) (known : program.Knows db)
    (textual : program.Touches fun _ key => Utf8.valid key = true)
    (decided : executeKeyed keyed id (some (db.mutation program)) = .decided record) :
    ∀ m ∈ record.mutations, Utf8.valid m.key = true := by
  obtain ⟨-, -, -, callback, eq, decided⟩ := executeKeyed_eq_decided decided
  obtain rfl := Option.some_inj.mp eq
  obtain ⟨code, result, -, -, -, -, rfl⟩ | ⟨encoded, mutations, -, -, final, rfl⟩ :=
    decideKeyed_eq_decided decided
  · simp
  · obtain ⟨rfl, -⟩ := finalize_ok final
    intro m mem
    obtain ⟨⟨key, value⟩, listed, rfl⟩ := List.mem_map.mp mem
    have get := Std.ExtTreeMap.mem_toList_iff_getElem?_eq_some.mp listed
    rw [db.writes_mutation] at get
    rw [key_writeMutation]
    refine TxProgram.forall_writes (W := fun key _ => Utf8.valid key = true)
      (known.touches.and textual) (fun dataset key value ⟨known, valid⟩ wrote => ?_) (by simp) key
      value get
    obtain ⟨bucket, name, listed⟩ := known wrote.own
    rwa [valid_backendRecordKey (small bucket name _ listed)]

/-! ## Groups -/

/-- The end of the log is the live state. -/
structure Current (db : KeyedDB) (wal : Bytes) (base : ByteMap Bytes) (sequence : UInt64)
    (covered tail : List KeyedWALRecord) : Prop where
  log : wal = logOf (covered ++ tail)
  records : db.records = tail.foldl applyRecord base
  last : db.sequence = endSequence sequence tail

section Group

variable {c : CatalogState} {file : Option Bytes} {wal : Bytes} {base : ByteMap Bytes}
  {sequence : UInt64} {covered tail : List KeyedWALRecord} {db : KeyedDB} {record : KeyedWALRecord}

theorem logOf_snoc (covered tail : List KeyedWALRecord) (record : KeyedWALRecord) :
    logOf (covered ++ (tail ++ [record])) =
      logOf (covered ++ tail) ++ Frame.frame record.marshal := by
  simp

/-- A decision whose frame is appended, perhaps in part. -/
theorem Files.append (h : Files c file wal base sequence covered tail)
    (current : Current db wal base sequence covered tail) (legible : Legible record)
    (next : record.sequence = db.sequence + 1) (owns : c.Owns (applyKeyed db record).records)
    {n : Nat} : Files c file (wal ++ (Frame.frame record.marshal).take n) base sequence covered
      (tail ++ [record]) := by
  refine { h with next := ?_, legible := ?_, whole := ?_, part := ?_, owned := ?_ }
  · rw [consecutive_append, ← current.last]
    exact ⟨h.next, next, trivial⟩
  · rw [← List.append_assoc]
    intro r mem
    rcases List.mem_append.mp mem with mem | mem
    · exact h.legible r mem
    · rwa [List.mem_singleton.mp mem]
  · exact h.whole.trans (List.prefix_append _ _)
  · rw [current.log, logOf_snoc, List.prefix_append_right_inj]
    exact List.take_prefix _ _
  · intro ts part
    rcases List.prefix_concat_iff.mp part with rfl | part
    · rwa [List.foldl_append, ← current.records]
    · exact h.owned ts part

theorem Current.append (current : Current db wal base sequence covered tail) :
    Current (applyKeyed db record) (wal ++ Frame.frame record.marshal) base sequence covered
      (tail ++ [record]) := by
  refine ⟨?_, ?_, ?_⟩
  · rw [current.log, logOf_snoc]
  · rw [records_applyKeyed, current.records, List.foldl_append]
    rfl
  · rw [endSequence_append]
    rfl

theorem appendKeyedFrame_ok {fault : Option AppendFault} {wal' : Bytes}
    (h : appendKeyedFrame wal record fault = (wal', none)) :
    wal' = wal ++ Frame.frame record.marshal ∧ record.marshal.length ≤ maxKeyedFrameBytes := by
  unfold appendKeyedFrame at h
  split at h
  · cases h
  simp only at h
  split at h
  · cases h
  split at h
  · cases h
  · cases h
    exact ⟨rfl, by omega⟩

theorem appendKeyedFrame_error {fault : Option AppendFault} {wal' : Bytes} {err : Error}
    (h : appendKeyedFrame wal record fault = (wal', some err)) :
    wal' = wal ∨ record.marshal.length ≤ maxKeyedFrameBytes ∧
      ∃ n, wal' = wal ++ (Frame.frame record.marshal).take n := by
  unfold appendKeyedFrame at h
  split at h
  · cases h
    exact .inl rfl
  simp only at h
  split at h
  · cases h
    exact .inl rfl
  split at h
  · cases h
    exact .inr ⟨by omega, _, rfl⟩
  · cases h

/-- What a group leaves: all its frames, and perhaps a part of one more, if it fails. -/
theorem Files.group {host : Host} {size : Nat} (faults : Faults)
    (h : Files host.db.catalog file wal base sequence covered tail)
    (log : host.dir.wal = some wal)
    (current : host.db.keyed.poisoned = false →
      Current host.db.keyed wal base sequence covered tail)
    (decisions : ∀ request ∈ host.requests size, ∀ keyed record,
      host.db.catalog.Owns keyed.records →
      executeKeyed keyed request.commandID request.mutation = .decided record →
      host.db.catalog.Owns (applyKeyed keyed record).records ∧
        ∀ m ∈ record.mutations, Utf8.valid m.key = true) :
    ∃ tail', Files host.db.catalog file (host.group size faults).wal base sequence covered tail' ∧
      wal <+: (host.group size faults).wal ∧
      (host.db.keyed.poisoned = true → (host.group size faults).db.poisoned = true) ∧
      ((host.group size faults).db.poisoned = false →
        Current (host.group size faults).db (host.group size faults).wal base sequence covered
          tail') := by
  unfold Host.group
  rw [log, Option.getD_some]
  refine processCommitGroup_induction (P := fun db wal' _ => ∃ tail',
    Files host.db.catalog file wal' base sequence covered tail' ∧ wal <+: wal' ∧
      (host.db.keyed.poisoned = true → db.poisoned = true) ∧
      (db.poisoned = false → Current db wal' base sequence covered tail'))
    ⟨tail, h, List.prefix_refl _, fun dead => dead, current⟩ ?_ ?_ ?_
  · rintro db wal₁ applied request record fault wal₂ mem ⟨ts, files, more, dead, live⟩ healthy run
      append
    have current := live healthy
    obtain ⟨rfl, short⟩ := appendKeyedFrame_ok append
    have owned := files.owned ts (List.prefix_refl _)
    rw [← current.records] at owned
    obtain ⟨owns, keys⟩ := decisions request mem db record owned run
    obtain ⟨-, -, -, callback, -, decided⟩ := executeKeyed_eq_decided run
    obtain ⟨-, next⟩ := decideKeyed_identity decided
    have files := files.append (n := (Frame.frame record.marshal).length) current ⟨keys, short⟩ next
      owns
    rw [List.take_length] at files
    exact ⟨ts ++ [record], files, more.trans (List.prefix_append _ _), dead,
      fun _ => current.append⟩
  · rintro db wal₁ applied request record fault wal₂ err mem
      ⟨ts, files, more, dead, live⟩ healthy run
      append
    have current := live healthy
    rcases appendKeyedFrame_error append with rfl | ⟨short, n, rfl⟩
    · exact ⟨ts, files, more, fun _ => rfl, by simp [KeyedDB.poison]⟩
    · have owned := files.owned ts (List.prefix_refl _)
      rw [← current.records] at owned
      obtain ⟨owns, keys⟩ := decisions request mem db record owned run
      obtain ⟨-, -, -, callback, -, decided⟩ := executeKeyed_eq_decided run
      obtain ⟨-, next⟩ := decideKeyed_identity decided
      exact ⟨ts ++ [record], files.append current ⟨keys, short⟩ next owns,
        more.trans (List.prefix_append _ _), fun _ => rfl, by simp [KeyedDB.poison]⟩
  · rintro db wal₁ applied ⟨ts, files, more, dead, live⟩
    exact ⟨ts, files, more, fun _ => rfl, by simp [KeyedDB.poison]⟩

end Group

/-! ## Structural changes -/

theorem small_ne_max {id : UInt64} (small : ∀ b ∈ putUint64BE id, b < 0x80) : id + 1 ≠ 0 := by
  intro wraps
  have last : id = 0xFFFFFFFFFFFFFFFF := by grind
  rw [last] at small
  exact absurd (small 0xFF (by decide +kernel)) (by decide)

theorem CatalogState.Readable.install {db : Database} {call : Call} {next : CatalogState}
    (readable : db.catalog.Readable) (range : db.keyed.options.InRange)
    (new : db.Structural call next) (ready : call.Ready db.catalog) (textual : call.Textual) :
    next.Readable := by
  have identity : Utf8.valid next.databaseID = true := by cases new <;> exact readable.identity
  cases call with
  | bucket name =>
    refine ⟨identity, fun bucket mem => ?_, ?_, ?_⟩
    · cases new with
      | bucket absent =>
        rcases Std.ExtTreeMap.mem_insert.mp mem with same | mem
        · rw [← Std.LawfulEqCmp.eq_of_compare same]
          exact textual
        · exact readable.buckets bucket mem
    · simpa only [new.dataset?_bucket] using readable.names
    · simpa only [new.dataset?_bucket] using readable.datasets
  | dataset bucket name options =>
    obtain ⟨normalized, normal, absent, id, lookup⟩ := new.dataset?_dataset
    obtain ⟨valid, type, inRange⟩ := textual
    obtain ⟨records, value, same⟩ := inRange.normalize range normal
    refine ⟨identity, fun b mem => ?_, fun b n info get => ?_, fun b n info get => ?_⟩
    · cases new with
      | dataset normal absent =>
        rcases Std.ExtTreeMap.mem_insert.mp mem with same | mem
        · rw [← Std.LawfulEqCmp.eq_of_compare same]
          exact readable.buckets _ ready.2
        · exact readable.buckets b mem
    · rw [lookup] at get
      split at get
      · rename_i here
        rwa [← here.2]
      · exact readable.names b n info get
    · rw [lookup] at get
      split at get
      · obtain rfl := Option.some_inj.mp get
        obtain ⟨kind, -⟩ := normalizeDatasetOptions_ok normal
        refine ⟨readable.buckets _ ready.2, valid, ?_, ?_, ?_, records, value⟩
        · simp only [Database.Structural.entry, kind]
          decide
        · exact show Utf8.valid goCatalog = true by decide
        · simp only [Database.Structural.entry, same, type]
      · exact readable.datasets b n info get
  | _ => cases new

/-- The stored catalog and the new topology after a structural change. -/
theorem persistCatalog_catalog (next : CatalogState) (d : Directory)
    (fault : Option (Nat × String)) :
    ∃ tmp, ((persistCatalog next d fault).1 = { d with catalogTmp := tmp } ∧
        (persistCatalog next d fault).2 ≠ none) ∨
      (persistCatalog next d fault).1 =
        { d with catalog := some next.file, catalogTmp := tmp } := by
  match fault with
  | none => exact ⟨_, .inr rfl⟩
  | some (0, _) => exact ⟨_, .inl ⟨rfl, Option.some_ne_none _⟩⟩
  | some (1, _) => exact ⟨_, .inl ⟨rfl, Option.some_ne_none _⟩⟩
  | some (2, _) => exact ⟨_, .inl ⟨rfl, Option.some_ne_none _⟩⟩
  | some (3, _) => exact ⟨_, .inl ⟨rfl, Option.some_ne_none _⟩⟩
  | some (4, _) => exact ⟨_, .inl ⟨rfl, Option.some_ne_none _⟩⟩
  | some (5, _) => exact ⟨_, .inr rfl⟩
  | some (n + 6, message) =>
    have all : catalogAfter next d (n + 6) = catalogAfter next d catalogOps.length := by
      rw [catalogAfter, catalogAfter, List.take_of_length_le (by simp [catalogOps]),
        List.take_of_length_le (by simp)]
    simp only [persistCatalog, all]
    exact ⟨_, .inr rfl⟩

/-! ## What a running database keeps -/

/-- The part of the log that a Sync has covered after a step. While the handle works that is all
of it; a step that fails covers nothing new. -/
def Host.durableAfter (host next : Host) (durable : Bytes) : Bytes :=
  if next.db.keyed.poisoned = false then next.dir.wal.getD []
  else if host.db.keyed.poisoned = false then
    (next.dir.wal.getD []).take (host.dir.wal.getD []).length
  else durable

/-- A stored topology that owns whatever the live one does. -/
structure Stored (live : CatalogState) (d : Directory) (c : CatalogState) : Prop where
  file : d.catalog = some c.file
  readable : c.Readable
  sound : c.Sound
  small : c.SmallIDs
  within : live.Within c
  owns : ∀ records, live.Owns records → c.Owns records

/-- The log and the snapshot of a handle. -/
structure Kept (host : Host) (durable : Bytes) (wal : Bytes) (base : ByteMap Bytes)
    (sequence : UInt64) (covered tail : List KeyedWALRecord) : Prop where
  log : host.dir.wal = some wal
  files : Files host.db.catalog host.dir.snapshot wal base sequence covered tail
  whole : logOf covered <+: durable
  part : durable <+: wal
  current : host.db.keyed.poisoned = false →
    Current host.db.keyed wal base sequence covered tail

structure Host.Ahead (host : Host) (durable : Bytes) : Prop where
  proper : host.Proper
  readable : host.db.catalog.Readable
  small : host.db.catalog.SmallIDs
  range : host.db.keyed.options.InRange
  textual : ∀ call ∈ host.waiting, call.Textual
  stored : ∃ c, Stored host.db.catalog host.dir c
  kept : ∃ wal base sequence covered tail, Kept host durable wal base sequence covered tail

/-- What the change of a step does to the files. -/
structure Moved (host : Host) (db : Database) (d : Directory) (durable : Bytes) : Prop where
  proper : db.Proper
  readable : db.catalog.Readable
  small : db.catalog.SmallIDs
  options : db.keyed.options = host.db.keyed.options
  stored : ∃ c, Stored db.catalog d c
  kept : ∃ wal base sequence covered tail,
    Kept { host with db := db, dir := d }
      (host.durableAfter { host with db := db, dir := d } durable) wal base sequence covered tail

section Moves

variable {host : Host} {durable : Bytes} {db : Database} {d : Directory}

theorem Kept.same {wal : Bytes} {base : ByteMap Bytes} {sequence : UInt64}
    {covered tail : List KeyedWALRecord} (h : Kept host durable wal base sequence covered tail)
    (log : d.wal = host.dir.wal) (snapshot : d.snapshot = host.dir.snapshot)
    (owns : ∀ records, host.db.catalog.Owns records → db.catalog.Owns records)
    (records : db.keyed.records = host.db.keyed.records)
    (last : db.keyed.sequence = host.db.keyed.sequence)
    (dead : host.db.keyed.poisoned = true → db.keyed.poisoned = true) :
    Kept { host with db := db, dir := d }
      (host.durableAfter { host with db := db, dir := d } durable)
        wal base sequence covered tail := by
  have reached := log.trans h.log
  have covers : durable <+: host.durableAfter { host with db := db, dir := d } durable ∧
      host.durableAfter { host with db := db, dir := d } durable <+: wal := by
    unfold Host.durableAfter
    simp only [reached, h.log, Option.getD_some]
    split
    · exact ⟨h.part, List.prefix_refl _⟩
    split
    · rw [List.take_length]
      exact ⟨h.part, List.prefix_refl _⟩
    · exact ⟨List.prefix_refl _, h.part⟩
  refine ⟨reached, ?_, h.whole.trans covers.1, covers.2, fun healthy => ?_⟩
  · simp only [snapshot]
    exact h.files.mono owns
  · have working : host.db.keyed.poisoned = false := by
      by_contra poisoned
      simp only [Bool.not_eq_false] at poisoned
      simp [dead poisoned] at healthy
    obtain ⟨text, state, sequence⟩ := h.current working
    exact ⟨text, records.trans state, last.trans sequence⟩

/-- A change that leaves the topology and the records alone. -/
theorem Host.Ahead.unchanged (h : host.Ahead durable) (catalog : d.catalog = host.dir.catalog)
    (topology : db.catalog = host.db.catalog) (records : db.keyed.records = host.db.keyed.records)
    (options : db.keyed.options = host.db.keyed.options)
    (kept : ∃ wal base sequence covered tail, Kept { host with db := db, dir := d }
      (host.durableAfter { host with db := db, dir := d } durable) wal base sequence covered tail) :
    Moved host db d durable := by
  obtain ⟨c, stored⟩ := h.stored
  refine ⟨⟨?_, ?_, ?_⟩, ?_, ?_, options, ⟨c, ?_⟩, kept⟩
  · exact topology ▸ h.proper.db.sound
  · rw [topology, records]
    exact h.proper.db.owns
  · rw [options, records]
    exact h.proper.db.total
  · exact topology ▸ h.readable
  · exact topology ▸ h.small
  · rw [topology]
    exact { stored with file := catalog.trans stored.file }

theorem Host.Ahead.idle (h : host.Ahead durable) (log : d.wal = host.dir.wal)
    (snapshot : d.snapshot = host.dir.snapshot) (catalog : d.catalog = host.dir.catalog)
    (topology : db.catalog = host.db.catalog) (records : db.keyed.records = host.db.keyed.records)
    (last : db.keyed.sequence = host.db.keyed.sequence)
    (options : db.keyed.options = host.db.keyed.options)
    (dead : host.db.keyed.poisoned = true → db.keyed.poisoned = true) :
    Moved host db d durable := by
  obtain ⟨wal, base, sequence, covered, tail, kept⟩ := h.kept
  exact h.unchanged catalog topology records options ⟨wal, base, sequence, covered, tail,
    kept.same log snapshot (fun _ owns => by rwa [topology]) records last dead⟩

/-- A snapshot, as far as it gets. -/
theorem Host.Ahead.snapshot (h : host.Ahead durable) (healthy : host.db.keyed.poisoned = false)
    (fault : Option (Nat × String)) {db : Database}
    (same : db = host.db ∨ db = { host.db with keyed := host.db.keyed.poison }) :
    Moved host db (snapshotKeyed host.db.keyed host.dir fault).1 durable := by
  obtain ⟨tmp, n, shape⟩ : ∃ tmp n, (snapshotKeyed host.db.keyed host.dir fault).1 =
      { snapshotAfter host.db.keyed host.dir n with snapshotTmp := tmp } := by
    match fault with
    | none => exact ⟨_, snapshotOps.length, rfl⟩
    | some (n, _) => exact ⟨_, n, rfl⟩
  obtain ⟨wal, base, sequence, covered, tail, kept⟩ := h.kept
  obtain ⟨text, records, last⟩ := kept.current healthy
  obtain ⟨before, after⟩ := kept.files.snapshotted text records last
  have fields : db.catalog = host.db.catalog ∧ db.keyed.records = host.db.keyed.records ∧
      db.keyed.sequence = host.db.keyed.sequence ∧ db.keyed.options = host.db.keyed.options := by
    rcases same with rfl | rfl <;> exact ⟨rfl, rfl, rfl, rfl⟩
  obtain ⟨topology, state, last', options⟩ := fields
  -- All of the log that is left is durable.
  have durable_eq (d : Directory) (short : (d.wal.getD []).length ≤ wal.length) :
      host.durableAfter { host with db := db, dir := d } durable = d.wal.getD [] := by
    unfold Host.durableAfter
    simp only [healthy, kept.log, Option.getD_some, if_true, List.take_of_length_le short, ite_self]
  rw [shape]
  obtain ⟨tmp', same' | same' | same'⟩ := snapshotAfter_cases host.db.keyed host.dir n
  · rw [same']
    exact h.idle rfl rfl rfl topology state last' options (by simp [healthy])
  · rw [same']
    refine h.unchanged rfl topology state options ⟨wal, host.db.keyed.records,
      host.db.keyed.sequence, covered ++ tail, [], kept.log, ?_, ?_, ?_, fun _ => ?_⟩
    · exact before.mono fun _ owns => topology ▸ owns
    · rw [durable_eq _ (by simp [kept.log])]
      simp [kept.log, text]
    · rw [durable_eq _ (by simp [kept.log])]
      simp [kept.log]
    · exact ⟨by rw [text, List.append_nil], state, last'⟩
  · rw [same']
    refine h.unchanged rfl topology state options ⟨[], host.db.keyed.records,
      host.db.keyed.sequence, [], [], rfl, ?_, ?_, ?_, fun _ => ?_⟩
    · exact after.mono fun _ owns => topology ▸ owns
    · simp
    · rw [durable_eq _ (by simp)]
      simp
    · exact ⟨rfl, state, last'⟩

/-- A structural call, as far as it gets. -/
theorem Host.Ahead.restructure (h : host.Ahead durable) {call : Call} {next : CatalogState}
    (pending : call ∈ host.waiting) (new : host.db.Structural call next)
    {fault : Option (Nat × String)}
    (smallIDs : ∀ c : CatalogState, c.Readable →
      (persistCatalog next host.dir fault).1.catalog = some c.file → c.SmallIDs)
    (outcome : (persistCatalog next host.dir fault).2 = none ∧
      db = { host.db with catalog := next } ∨
      db = { host.db with keyed := host.db.keyed.poison }) :
    Moved host db (persistCatalog next host.dir fault).1 durable := by
  have ready := h.proper.ready call pending
  have readable := h.readable.install h.range new ready (h.textual call pending)
  have owns (records : ByteMap Bytes) (owned : host.db.catalog.Owns records) : next.Owns records :=
    owned.install h.proper.db.sound new
  -- A catalog that was stored has small identities, so the next one is not zero.
  have sound (small : next.SmallIDs) : next.Sound := by
    refine h.proper.db.sound.install new ready ?_
    rintro bucket name options rfl absent
    obtain ⟨normalized, -, -, -, lookup⟩ := new.dataset?_dataset
    have entry := lookup bucket.name name
    rw [if_pos ⟨rfl, rfl⟩] at entry
    have id := small bucket.name name _ entry
    rw [Database.Structural.entry] at id
    exact small_ne_max id
  obtain ⟨wal, base, sequence, covered, tail, kept⟩ := h.kept
  obtain ⟨tmp, ⟨same, failed⟩ | same⟩ := persistCatalog_catalog next host.dir fault
  · rw [same]
    rcases outcome with ⟨done, -⟩ | rfl
    · exact absurd done failed
    · exact h.idle rfl rfl rfl rfl rfl rfl rfl fun _ => rfl
  · have small : next.SmallIDs := smallIDs next readable (by rw [same])
    rw [same]
    rcases outcome with ⟨-, rfl⟩ | rfl
    · refine ⟨⟨sound small, owns _ h.proper.db.owns, h.proper.db.total⟩, readable, small, rfl,
        ⟨next, rfl, readable, sound small, small, .refl next, fun _ owned => owned⟩, wal, base,
        sequence, covered, tail, kept.same rfl rfl owns rfl rfl fun dead => dead⟩
    · refine ⟨⟨h.proper.db.sound, h.proper.db.owns, h.proper.db.total⟩, h.readable, h.small, rfl,
        ⟨next, rfl, readable, sound small, small, new.within, owns⟩, wal, base,
        sequence, covered, tail, kept.same rfl rfl (fun _ owned => owned) rfl rfl fun _ => rfl⟩

/-- A group, with all its failures. -/
theorem Host.Ahead.commit (h : host.Ahead durable) {size : Nat} (faults : Faults)
    {answers : List Answer} (known : ∀ answer ∈ answers, answer.Known host.db.catalog)
    (given : ∀ submission ∈ host.queue.take size, submission.Given host.db.handle answers)
    (textual : ∀ submission ∈ host.queue.take size, submission.Textual) :
    Moved host (host.commit size faults).db (host.commit size faults).dir durable := by
  obtain ⟨c, stored⟩ := h.stored
  obtain ⟨wal, base, sequence, covered, tail, kept⟩ := h.kept
  have proper := h.proper.db.commit (fun submission mem callback eq => by
    obtain ⟨program, -, rest⟩ := (given submission mem).knows known eq
    exact ⟨program, rest⟩) faults
  have decisions : ∀ request ∈ host.requests size, ∀ keyed record,
      host.db.catalog.Owns keyed.records →
      executeKeyed keyed request.commandID request.mutation = .decided record →
      host.db.catalog.Owns (applyKeyed keyed record).records ∧
        ∀ m ∈ record.mutations, Utf8.valid m.key = true :=
    fun request mem keyed record owns run => by
      obtain ⟨submission, listed, rfl⟩ := List.mem_map.mp mem
      obtain ⟨-, -, -, callback, eq, -⟩ := executeKeyed_eq_decided run
      obtain ⟨program, submitted, rfl, knows⟩ := (given submission listed).knows known eq
      have keys := textual submission listed
      simp only [Submission.Textual, submitted] at keys
      rw [eq] at run
      exact ⟨owns.decided knows run, valid_keys_decided h.small knows keys run⟩
  obtain ⟨tail', files, more, dead, current⟩ :=
    kept.files.group faults kept.log kept.current decisions
  have log : (host.commit size faults).dir.wal = some (host.group size faults).wal := by
    simp [Host.commit, kept.log]
  have covers : logOf covered <+: host.durableAfter (host.commit size faults) durable ∧
      host.durableAfter (host.commit size faults) durable <+: (host.group size faults).wal := by
    unfold Host.durableAfter
    simp only [log, kept.log, Option.getD_some]
    split
    · exact ⟨files.whole, List.prefix_refl _⟩
    split
    · rw [← List.prefix_iff_eq_take.mp more]
      exact ⟨kept.files.whole, more⟩
    · exact ⟨kept.whole, kept.part.trans more⟩
  have options : (host.group size faults).db.options = host.db.keyed.options :=
    @processCommitGroup_induction faults _ _ _
      (fun db _ _ => db.options = host.db.keyed.options) rfl
      (fun _ _ _ _ _ _ _ _ h _ _ _ => h) (fun _ _ _ _ _ _ _ _ _ h _ _ _ => h) fun _ _ _ h => h
  exact ⟨proper, h.readable, h.small, options, ⟨c, { stored with }⟩, _, base, sequence, covered,
    tail', log, files, covers.1, covers.2, current⟩

theorem Host.Ahead.change (h : host.Ahead durable) {taken : Nat} (change : host.Change taken db d)
    {answers : List Answer} (known : ∀ answer ∈ answers, answer.Known host.db.catalog)
    (given : ∀ submission ∈ host.queue.take taken, submission.Given host.db.handle answers)
    (textual : ∀ submission ∈ host.queue.take taken, submission.Textual)
    (small : ∀ c : CatalogState, c.Readable → d.catalog = some c.file → c.SmallIDs) :
    Moved host db d durable := by
  cases change with
  | quiet | close => exact h.idle rfl rfl rfl rfl rfl rfl rfl fun dead => dead
  | finish fault live => exact h.snapshot live fault (.inl rfl)
  | group size faults => exact h.commit faults known given textual
  | call pending live effect =>
    cases effect with
    | quiet => exact h.idle rfl rfl rfl rfl rfl rfl rfl fun dead => dead
    | @snapshot fault _ done =>
      have moved := h.snapshot live fault (.inl rfl)
      rwa [done] at moved
    | @snapshotFailed fault _ _ failed =>
      have moved := h.snapshot live fault (.inr rfl)
      rwa [failed] at moved
    | @install next fault _ new done =>
      have moved :=
        @Host.Ahead.restructure host durable { host.db with catalog := next } h _ _ pending
        new fault (by rw [done]; exact small) (.inl ⟨by rw [done], rfl⟩)
      rwa [done] at moved
    | @installFailed next fault _ _ new failed =>
      have moved := h.restructure pending new (by rw [failed]; exact small) (.inr rfl)
      rwa [failed] at moved

theorem Host.Ahead.step (h : host.Ahead durable) {next : Host} {answers later : List Answer}
    (known : ∀ answer ∈ answers, answer.Known host.db.catalog) (step : host.Step later next)
    (given : host.Given next answers) (textual : host.Textual next) :
    next.Ahead (host.durableAfter next durable) := by
  have moved := h.change step.change known given.taken textual.taken textual.stored
  obtain ⟨wal, base, sequence, covered, tail, kept⟩ := moved.kept
  exact ⟨⟨moved.proper, step.ready h.proper.ready known given⟩, moved.readable, moved.small,
    moved.options ▸ h.range, textual.waiting, moved.stored, wal, base, sequence, covered, tail,
    kept.log, kept.files, kept.whole, kept.part, kept.current⟩

end Moves

/-! ## Lives of a database -/

/-- A directory that nobody uses, or a handle in use with the answers it has given and the part of
its log that a Sync has covered. -/
inductive World where
  | down (d : Directory)
  | up (host : Host) (answers : List Answer) (durable : Bytes)

/-- What a crash leaves of a directory. Of the log, all that a Sync has covered is left and any
part of the rest; temporary files may be there or not. A crash in the middle of a call is one
behind the call whose next file operation failed. -/
structure Host.Crash (host : Host) (durable : Bytes) (d : Directory) : Prop where
  format : d.format = host.dir.format
  snapshot : d.snapshot = host.dir.snapshot
  catalog : d.catalog = host.dir.catalog
  log : ∃ wal, d.wal = some wal ∧ durable <+: wal ∧ wal <+: host.dir.wal.getD []

def newCatalog (identity : Identity) : CatalogState :=
  { databaseID := hexText identity.val, nextDatasetID := 1 }

/-- What a crash leaves while a directory is being opened: the marker, the log without its torn
tail and a new catalog may be there already. -/
structure Interrupted (d e : Directory) : Prop where
  format : e.format = d.format ∨ e.format = some KeyedFormat.catalog.contents
  snapshot : e.snapshot = d.snapshot
  log : e.wal = d.wal ∨ d.wal = none ∧ e.wal = some [] ∨
    ∃ options keyed d₁, openKeyed options .catalog d = .ok (keyed, d₁) ∧ e.wal = d₁.wal
  catalog : e.catalog = d.catalog ∨ d.catalog = none ∧ ∃ options keyed d₁ identity,
    openKeyed options .catalog d = .ok (keyed, d₁) ∧
      e.catalog = some (newCatalog identity).file

/-- The lives of a database, with any number of crashes. Calls use handles that were given out
since the last opening; their texts and keys are valid UTF-8, and all bytes of identities are
ASCII. -/
inductive Life : World → Prop where
  | empty : Life (.down {})
  | opened {d d' : Directory} {handle : Nat} {identity : Identity} {fault : Option (Nat × String)}
      {options : KeyedOptions} {db : Database} (before : Life (.down d)) (range : options.InRange)
      (opened : openCatalog handle identity fault options d = .ok (db, d')) :
      Life (.up { db := db, dir := d' } [] (d'.wal.getD []))
  | interrupted {d e : Directory} (before : Life (.down d))
      (left : Interrupted d e) : Life (.down e)
  | step {host next : Host} {answers later : List Answer} {durable : Bytes}
      (before : Life (.up host answers durable)) (step : host.Step later next)
      (given : host.Given next answers) (textual : host.Textual next) :
      Life (.up next (answers ++ later) (host.durableAfter next durable))
  | crash {host : Host} {answers : List Answer} {durable : Bytes} {d : Directory}
      (before : Life (.up host answers durable)) (crash : host.Crash durable d) : Life (.down d)

/-- A directory with a stored topology that owns what recovery reads, or without one and empty. -/
def Directory.Ahead (d : Directory) : Prop :=
  ∃ c base sequence covered tail, Files c d.snapshot (d.wal.getD []) base sequence covered tail ∧
    (d.catalog = some c.file ∧ c.Readable ∧ c.Sound ∧ c.SmallIDs ∨
      d.catalog = none ∧ d.snapshot = none ∧ d.wal.getD [] = [])

theorem files_empty {c : CatalogState} (none : ∀ bucket name, c.dataset? bucket name = none) :
    Files c Option.none [] ∅ 0 [] [] := by
  refine ⟨.inl ⟨rfl, rfl, rfl⟩, by simp, ⟨0, trivial, rfl⟩, trivial, by simp, by simp, by simp, ?_⟩
  intro ts part
  obtain rfl := List.prefix_nil.mp part
  exact ⟨by simp, by simp [none]⟩

theorem Host.Ahead.crash {host : Host} {durable : Bytes} (h : host.Ahead durable) {d : Directory}
    (crash : host.Crash durable d) : ∃ c base sequence covered tail,
      Stored host.db.catalog d c ∧
      Files host.db.catalog d.snapshot (d.wal.getD []) base sequence covered tail := by
  obtain ⟨c, stored⟩ := h.stored
  obtain ⟨wal, base, sequence, covered, tail, kept⟩ := h.kept
  obtain ⟨left, log, all, part⟩ := crash.log
  rw [kept.log, Option.getD_some] at part
  refine ⟨c, base, sequence, covered, tail,
    { stored with file := crash.catalog.trans stored.file }, ?_⟩
  rw [crash.snapshot, log, Option.getD_some]
  exact kept.files.cut (kept.whole.trans all) part

theorem newCatalog_dataset? (identity : Identity) (bucket name : Bytes) :
    (newCatalog identity).dataset? bucket name = none := by
  simp [newCatalog, CatalogState.dataset?]

theorem newCatalog_readable (identity : Identity) : (newCatalog identity).Readable :=
  ⟨valid_hexText _, by simp [newCatalog], by simp [newCatalog_dataset?],
    by simp [newCatalog_dataset?]⟩

theorem newCatalog_small (identity : Identity) : (newCatalog identity).SmallIDs := by
  simp [CatalogState.SmallIDs, newCatalog_dataset?]

theorem newCatalog_sound (identity : Identity) : (newCatalog identity).Sound := by
  refine ⟨fun blank => ?_, by simp [newCatalog], by simp [newCatalog],
    by simp [newCatalog_dataset?],
    by simp [newCatalog_dataset?]⟩
  have length := congrArg List.length blank
  simp [newCatalog, hexText, identity.2] at length

/-- What recovery reads from a directory without a catalog. -/
theorem openKeyed_unused {d d₁ : Directory} (snapshot : d.snapshot = none)
    (log : d.wal.getD [] = []) (recovered : openKeyed options .catalog d = .ok (keyed, d₁)) :
    keyed.records = ∅ ∧ keyed.sequence = 0 ∧ d₁.wal = some [] ∧ d₁.snapshot = none := by
  have files := @files_empty {} (by simp [CatalogState.dataset?])
  obtain ⟨ts, within, records, sequence, wal, file⟩ := files.read snapshot log recovered
  obtain rfl := List.prefix_nil.mp within
  exact ⟨records, sequence, wal, file⟩

theorem Directory.Ahead.interrupted {d e : Directory} (h : d.Ahead) (left : Interrupted d e) :
    e.Ahead := by
  obtain ⟨c, base, sequence, covered, tail, files, ⟨file, good⟩ | ⟨none, snapshot, log⟩⟩ := h
  · have catalog : e.catalog = some c.file := by
      rcases left.catalog with same | ⟨none, -⟩
      · exact same.trans file
      · simp [none] at file
    rcases left.log with same | ⟨none, created⟩ | ⟨options, keyed, d₁, recovered, same⟩
    · refine ⟨c, base, sequence, covered, tail, ?_, .inl ⟨catalog, good⟩⟩
      rwa [left.snapshot, same]
    · refine ⟨c, base, sequence, covered, tail, ?_, .inl ⟨catalog, good⟩⟩
      rw [left.snapshot, created]
      rwa [none] at files
    · obtain ⟨ts, within, -, -, wal, -⟩ := files.read rfl rfl recovered
      refine ⟨c, base, sequence, covered, ts, ?_, .inl ⟨catalog, good⟩⟩
      rw [left.snapshot, same, wal]
      exact files.exact within
  · have blank : e.wal.getD [] = [] := by
      rcases left.log with same | ⟨-, created⟩ | ⟨options, keyed, d₁, recovered, same⟩
      · rwa [same]
      · rw [created]
        rfl
      · rw [same, (openKeyed_unused snapshot log recovered).2.2.1]
        rfl
    have absent := left.snapshot.trans snapshot
    rcases left.catalog with same | ⟨-, options, keyed, d₁, identity, -, created⟩
    · refine ⟨{}, ∅, 0, [], [], ?_, .inr ⟨same.trans none, absent, blank⟩⟩
      rw [absent, blank]
      exact files_empty (by simp [CatalogState.dataset?])
    · refine ⟨newCatalog identity, ∅, 0, [], [], ?_, .inl ⟨created, newCatalog_readable _,
        newCatalog_sound _, newCatalog_small _⟩⟩
      rw [absent, blank]
      exact files_empty (newCatalog_dataset? identity)

theorem openKeyed_range {format : KeyedFormat} {d e : Directory} (range : options.InRange)
    (h : openKeyed options format d = .ok (keyed, e)) : keyed.options.InRange := by
  obtain ⟨bounds, normal, stored⟩ := bind_ok.mp h
  have same := openStorage_induction (P := fun db => db.options = bounds)
    (fun _ _ h _ _ => h) stored
    rfl fun snapshot u loaded => by rw [loadSnapshot_ok loaded]
  rw [same]
  exact range.normalize normal

/-- A handle on a topology that is stored, with the files that recovery has read. -/
theorem Database.Proper.ahead {db : Database} {d : Directory} (h : db.Proper)
    (range : db.keyed.options.InRange) {base : ByteMap Bytes} {sequence : UInt64}
    {covered tail : List KeyedWALRecord}
    (files : Files db.catalog d.snapshot (logOf (covered ++ tail)) base sequence covered tail)
    (records : db.keyed.records = tail.foldl applyRecord base)
    (last : db.keyed.sequence = endSequence sequence tail)
    (log : d.wal = some (logOf (covered ++ tail))) (file : d.catalog = some db.catalog.file)
    (readable : db.catalog.Readable) (small : db.catalog.SmallIDs) :
    Host.Ahead { db := db, dir := d } (d.wal.getD []) := by
  refine ⟨⟨h, by simp⟩, readable, small, range, by simp,
    ⟨db.catalog, file, readable, h.sound, small, .refl _, fun _ owns => owns⟩, _, base, sequence,
    covered, tail, log, files, ?_, ?_, fun _ => ⟨rfl, records, last⟩⟩
  · simp [log]
  · simp [log]

theorem Directory.Ahead.opened {d d' : Directory} {handle : Nat} {identity : Identity}
    {fault : Option (Nat × String)} {db : Database} (h : d.Ahead) (range : options.InRange)
    (opened : openCatalog handle identity fault options d = .ok (db, d')) :
    Host.Ahead { db := db, dir := d' } (d'.wal.getD []) := by
  have proper := openCatalog_proper opened
  obtain ⟨keyed, d₁, state, recovered, loaded, rfl⟩ := openCatalog_ok opened
  have bounds := openKeyed_range range recovered
  have catalog := openKeyed_catalog recovered
  obtain ⟨c, base, sequence, covered, tail, files, ⟨file, readable, sound, small⟩ |
    ⟨none, snapshot, log⟩⟩ := h
  · obtain ⟨ts, within, records, last, wal, same⟩ := files.read rfl rfl recovered
    rw [readable.loadOrCreateCatalog_file (catalog.trans file)] at loaded
    cases valid : validateCatalogState c.decoded keyed with
    | error err =>
      rw [valid] at loaded
      cases loaded
    | ok =>
      rw [valid] at loaded
      cases loaded
      refine proper.ahead bounds ?_ records last wal (catalog.trans file) readable small
      simp only [same]
      exact files.exact within
  · obtain ⟨records, last, wal, same⟩ := openKeyed_unused snapshot log recovered
    unfold loadOrCreateCatalog at loaded
    split at loaded
    case h_2 present =>
      rw [catalog, none] at present
      cases present
    split at loaded
    · cases loaded
    simp only at loaded
    split at loaded
    · cases loaded
    rename_i stored
    cases loaded
    obtain ⟨tmp, ⟨-, failed⟩ | shape⟩ :=
      persistCatalog_catalog (newCatalog identity) { d₁ with catalogTmp := Option.none } fault
    · exact absurd (congrArg Prod.snd stored) failed
    · have left := shape.symm.trans (congrArg Prod.fst stored)
      simp only at left
      subst left
      refine @Database.Proper.ahead _ _ proper bounds ∅ 0 [] [] ?_ records last wal rfl
        (newCatalog_readable _) (newCatalog_small _)
      simp only [same]
      exact files_empty (newCatalog_dataset? identity)

def World.Ahead : World → Prop
  | .down d => d.Ahead
  | .up host answers durable =>
    host.Ahead durable ∧ ∀ answer ∈ answers, answer.Known host.db.catalog

theorem Life.ahead {world : World} (life : Life world) : world.Ahead := by
  induction life with
  | empty =>
    exact ⟨{}, ∅, 0, [], [], files_empty (by simp [CatalogState.dataset?]), .inr ⟨rfl, rfl, rfl⟩⟩
  | opened before range opened ih => exact ⟨Directory.Ahead.opened ih range opened, by simp⟩
  | interrupted before left ih => exact Directory.Ahead.interrupted ih left
  | step before step given textual ih =>
    refine ⟨ih.1.step ih.2 step given textual, fun answer mem => ?_⟩
    rcases List.mem_append.mp mem with mem | mem
    · exact (ih.2 answer mem).within step.change.within
    · exact step.known answer mem
  | crash before crash ih =>
    obtain ⟨c, base, sequence, covered, tail, stored, files⟩ := ih.1.crash crash
    exact ⟨c, base, sequence, covered, tail, files.mono stored.owns,
      .inl ⟨stored.file, stored.readable, stored.sound, stored.small⟩⟩

/-- Wherever a database crashes, if its records can be recovered: the catalog that is read has all
datasets of the live topology with the same entries; every recovered record belongs to one of
them; the check of the topology accepts the records; and a call with the options of a dataset
returns the dataset under its identity. -/
theorem catalog_before_data {host : Host} {answers : List Answer} {durable : Bytes}
    (life : Life (.up host answers durable)) {d d₁ : Directory} (crash : host.Crash durable d)
    {options : KeyedOptions} {keyed : KeyedDB}
    (recovered : openKeyed options .catalog d = .ok (keyed, d₁)) (identity : Identity)
    (fault : Option (Nat × String)) :
    ∃ c, loadOrCreateCatalog identity fault keyed d₁ = .ok (c, { d₁ with catalogTmp := none }) ∧
      validateCatalogState c.decoded keyed = .ok () ∧
      host.db.catalog.Within c ∧
      (∀ (key value : Bytes), keyed.records[key]? = some value →
        ∃ bucket name info, host.db.catalog.dataset? bucket name = some info ∧
          c.dataset? bucket name = some info ∧ backendDatasetID key = some info.id) ∧
      ∀ (db : Database) (dir : Directory) (env : Environment) (bucket : Bucket) (name : Bytes)
        (info : DatasetInfo) (wanted : DatasetOptions), db.catalog = c →
        host.db.catalog.dataset? bucket.name name = some info →
        info.Matches db.keyed.options wanted →
        (db.perform dir env (.dataset bucket name wanted)).reply =
          .ok (.dataset ⟨db.handle, info⟩) := by
  obtain ⟨c, base, sequence, covered, tail, stored, files⟩ := life.ahead.1.crash crash
  obtain ⟨ts, within, records, -, -, -⟩ := files.read rfl rfl recovered
  have owns := files.owned ts within
  rw [← records] at owns
  have valid := validateCatalogState_ok_iff.mpr ⟨stored.sound, stored.owns _ owns⟩
  refine ⟨c, ?_, valid, stored.within, fun key value get => ?_, ?_⟩
  · rw [stored.readable.loadOrCreateCatalog_file ((openKeyed_catalog recovered).trans stored.file),
      valid]
    rfl
  · obtain ⟨bucket, name, info, listed, named, -⟩ := owns.record key value get
    exact ⟨bucket, name, info, listed, stored.within.datasets _ _ _ listed, named⟩
  · rintro db dir env bucket name info wanted rfl listed same
    rw [Database.openDataset_existing (stored.within.datasets _ _ _ listed) same]

section Reopened

/-- The identities in a catalog file are those that are read from it. -/
theorem smallIDs_of_read {d : Directory} {keyed : KeyedDB} {ids : List UInt64}
    (read : (loadOrCreateCatalog zeroIdentity none keyed d).toOption.map (fun r =>
      (bucketInfos r.1.buckets.toList).map (·.id)) = some ids)
    (small : ∀ id ∈ ids, ∀ b ∈ putUint64BE id, b < 0x80) (c : CatalogState) (readable : c.Readable)
    (file : d.catalog = some c.file) : c.SmallIDs := by
  rw [readable.loadOrCreateCatalog_file file] at read
  intro bucket name info get
  have listed := (c.mem_bucketInfos info).mpr ⟨bucket, name, get⟩
  cases valid : validateCatalogState c.decoded keyed with
  | error err => simp [valid, Except.map, Except.toOption] at read
  | ok =>
    simp only [valid, Except.map, Except.toOption, Option.map_some, Option.some_inj] at read
    exact small info.id (read ▸ List.mem_map_of_mem listed)

theorem Host.Use.life {start host : Host} {durable : Bytes} (begun : Life (.up start [] durable))
    {answers : List Answer} (use : Host.Use Host.Textual start answers host) :
    ∃ durable', Life (.up host answers durable') := by
  induction use with
  | refl => exact ⟨durable, begun⟩
  | step before step given textual ih =>
    obtain ⟨durable', life⟩ := ih
    exact ⟨_, life.step step given textual⟩

theorem newDatabase_small (c : CatalogState) :
    c.Readable → newDatabase.dir.catalog = some c.file → c.SmallIDs :=
  @smallIDs_of_read _ newDatabase.db.keyed [] (by decide +kernel) (by simp) c

theorem oneBucket_small (c : CatalogState) :
    c.Readable → oneBucket.dir.catalog = some c.file → c.SmallIDs :=
  @smallIDs_of_read _ oneBucket.db.keyed [] (by decide +kernel) (by simp) c

set_option maxRecDepth 4000 in
theorem oneDataset_small (c : CatalogState) :
    c.Readable → oneDataset.dir.catalog = some c.file → c.SmallIDs := by
  have bytes : putUint64BE 1 = [0, 0, 0, 0, 0, 0, 0, 1] := rfl
  refine @smallIDs_of_read _ oneDataset.db.keyed [1] (by decide +kernel) (fun id mem => ?_) c
  rw [List.mem_singleton.mp mem, bytes]
  simp

theorem Host.Textual.of_unqueued {host next : Host} {calls : List Call}
    (waiting : next.waiting = calls)
    (textual : ∀ call ∈ calls, call.Textual) (queue : host.queue = [])
    (stored : ∀ c : CatalogState, c.Readable → next.dir.catalog = some c.file → c.SmallIDs) :
    host.Textual next :=
  ⟨waiting ▸ textual, by simp [queue], stored⟩

theorem oneDataset_textual : ∃ answers, Host.Use Host.Textual newDatabase
    (answers ++ [.reply (.ok (.dataset firstDataset))]) oneDataset := by
  have bucket := @Host.Use.call Host.Textual newDatabase newDatabase [] .live .refl
    (.bucket (ascii "b")) {} rfl (by decide +kernel) trivial
    (.of_unqueued rfl (List.forall_mem_singleton.mpr (by simp only [Call.Textual]; decide)) rfl
      newDatabase_small)
    (@Host.Textual.of_unqueued _ _ [] rfl (by simp) rfl oneBucket_small)
  exact ⟨_, @Host.Use.call Host.Textual newDatabase oneBucket _ .live bucket
    (.dataset ⟨0, ascii "b"⟩ (ascii "d") {}) {} rfl (by decide +kernel) (List.mem_singleton.mpr rfl)
    (.of_unqueued rfl
      (List.forall_mem_singleton.mpr ⟨by decide, by decide, by decide, by decide⟩) rfl
      oneBucket_small)
    (@Host.Textual.of_unqueued _ _ [] rfl (by simp) rfl oneDataset_small)⟩

theorem twoRecords_life : ∃ answers durable, Life (.up twoRecords answers durable) := by
  have begun := Life.empty.opened ⟨by decide, by decide⟩ newDatabase_opened
  obtain ⟨answers, dataset⟩ := oneDataset_textual
  have mutated := @Host.Use.mutate Host.Textual newDatabase oneDataset _ .live dataset
    putTwo {} rfl rfl rfl rfl rfl (by simp [Submission.Given, putTwo, TxProgram.Uses])
    (@Host.Textual.of_unqueued _ _ [] rfl (by simp) rfl oneDataset_small)
    (@Host.Textual.of_unqueued _ _ [] rfl (by simp) rfl oneDataset_small)
    ⟨fun call mem => (List.not_mem_nil mem).elim, fun submission mem => ?_, oneDataset_small⟩
  · obtain ⟨durable, life⟩ := mutated.life begun
    exact ⟨_, durable, life⟩
  · obtain rfl := List.mem_singleton.mp (List.mem_of_mem_take mem)
    exact ⟨by decide, fun _ => ⟨by decide, fun _ => trivial⟩⟩

set_option maxRecDepth 20000 in
/-- A crash behind the mutation. -/
theorem twoRecords_recovered : ∃ keyed d₁ c,
    openKeyed smallOptions .catalog twoRecords.dir = .ok (keyed, d₁) ∧ keyed.records.size = 2 ∧
    loadOrCreateCatalog zeroIdentity none keyed d₁ = .ok (c, { d₁ with catalogTmp := none }) ∧
    validateCatalogState c.decoded keyed = .ok () := by
  obtain ⟨answers, durable, life⟩ := twoRecords_life
  have size : (openKeyed smallOptions .catalog twoRecords.dir).toOption.map (·.1.records.size) =
      some 2 := by
    decide +kernel
  obtain ⟨⟨keyed, d₁⟩, recovered, two⟩ := Option.map_eq_some_iff.mp size
  obtain ⟨wal, _, _, _, _, kept⟩ := life.ahead.1.kept
  have crash : twoRecords.Crash durable twoRecords.dir :=
    ⟨rfl, rfl, rfl, wal, kept.log, kept.part, by simp [kept.log]⟩
  obtain ⟨c, loaded, valid, -⟩ :=
    catalog_before_data life crash (toOption_eq_some.mp recovered) zeroIdentity none
  exact ⟨keyed, d₁, c, toOption_eq_some.mp recovered, two, loaded, valid⟩

end Reopened

end OctetDB
