import OctetDB.Keyed.Storage

/-!
# The bounds of the writer and the bounds of recovery

The live checks and the checks of recovery are separate code over different quantities. They
agree on a decision exactly if the JSON in it is nested no deeper than the reader accepts and
the bytes of all written keys, those of deleted keys included, fit a transaction: the writer
counts the bytes of puts only.
-/

namespace OctetDB

open Std

/-! ## The writes a callback can collect -/

/-- Writes as the transaction calls admit them. -/
def Admitted (db : KeyedDB) (writes : Writes) : Prop :=
  ∀ (key : Bytes) (value : Option Bytes), writes[key]? = some value →
    key ≠ [] ∧ key.length ≤ db.maxStoredKeyBytes ∧
      ∀ v, value = some v → v.length ≤ db.options.maxValueBytes

theorem Admitted.empty (db : KeyedDB) : Admitted db ∅ := by simp [Admitted]

variable {db : KeyedDB} {writes : Writes} {key : Bytes} {program : TxProgram} {tx : Tx}
  {dataset : Dataset}

theorem Admitted.insert (h : Admitted db writes) {value : Option Bytes} (nonempty : key ≠ [])
    (short : key.length ≤ db.maxStoredKeyBytes)
    (small : ∀ v, value = some v → v.length ≤ db.options.maxValueBytes) :
    Admitted db (writes.insert key value) := by
  intro k v get
  rw [ExtTreeMap.getElem?_insert] at get
  by_cases same : k = key
  · obtain rfl : value = v := by simpa [same] using get
    exact same ▸ ⟨nonempty, short, small⟩
  · exact h k v (by simpa [Ne.symm same] using get)

theorem keyedMaxKeyBytes_le (db : KeyedDB) : keyedMaxKeyBytes ≤ db.maxStoredKeyBytes := by
  unfold KeyedDB.maxStoredKeyBytes
  split <;> omega

theorem KeyedTx.put_ok {tx t : KeyedTx} {value : Except String JsonText}
    (h : tx.put key value = .ok t) : key ≠ [] ∧ key.length ≤ keyedMaxKeyBytes ∧
      ∃ encoded, value = .ok encoded ∧ encoded.val.length ≤ tx.db.options.maxValueBytes ∧
        t = { tx with writes := tx.writes.insert key (some encoded.val) } := by
  unfold KeyedTx.put at h
  split at h
  · cases h
  split at h
  · cases h
  split at h
  · cases h
  split at h
  · cases h
  · cases h
    exact ⟨by assumption, by omega, _, rfl, by omega, rfl⟩

theorem KeyedTx.delete_ok {tx t : KeyedTx} (h : tx.delete key = .ok t) :
    key ≠ [] ∧ key.length ≤ keyedMaxKeyBytes ∧
      t = { tx with writes := tx.writes.insert key none } := by
  unfold KeyedTx.delete at h
  split_ifs at h
  cases h
  exact ⟨by assumption, by omega, rfl⟩

/-- Whatever calls a callback makes, its writes are admitted. -/
theorem KeyedProgram.admitted (program : KeyedProgram) {tx : KeyedTx}
    (h : Admitted tx.db tx.writes) : Admitted tx.db (program.run tx).writes := by
  induction program generalizing tx with
  | get key next ih => exact ih _ h
  | put key value next ih =>
    rw [KeyedProgram.run]
    split
    · rename_i t ok
      obtain ⟨nonempty, short, encoded, -, small, rfl⟩ := KeyedTx.put_ok ok
      refine @ih none { tx with writes := _ } (h.insert nonempty ?_ ?_)
      · exact short.trans (keyedMaxKeyBytes_le tx.db)
      · rintro v ⟨⟩; exact small
    · exact ih _ h
  | delete key next ih =>
    rw [KeyedProgram.run]
    split
    · rename_i t ok
      obtain ⟨nonempty, short, rfl⟩ := KeyedTx.delete_ok ok
      refine @ih none { tx with writes := _ } (h.insert nonempty ?_ (by simp))
      exact short.trans (keyedMaxKeyBytes_le tx.db)
    · exact ih _ h
  | done outcome => exact h

/-! ## The writes of a callback over datasets -/

/-- Every dataset handle the callback uses has the property. -/
def TxProgram.Uses (P : Dataset → Prop) : TxProgram → Prop
  | .get dataset _ next => P dataset ∧ ∀ answer, (next answer).Uses P
  | .put dataset _ _ next => P dataset ∧ ∀ answer, (next answer).Uses P
  | .delete dataset _ next => P dataset ∧ ∀ answer, (next answer).Uses P
  | .done _ => True

theorem TxProgram.Uses.mono {P Q : Dataset → Prop} (h : program.Uses P)
    (imp : ∀ dataset, P dataset → Q dataset) : program.Uses Q := by
  induction program with
  | get dataset key next ih | put dataset key value next ih | delete dataset key next ih =>
    exact ⟨imp _ h.1, fun answer => ih answer (h.2 answer)⟩
  | done outcome => trivial

theorem validDataset_ok {op : String} (h : tx.validDataset dataset key op = .ok ()) :
    dataset.db = tx.db.handle ∧ key ≠ [] ∧ key.length ≤ keyedMaxKeyBytes := by
  unfold Tx.validDataset validRecordKey at h
  split at h
  · cases h
  rename_i own
  split at h
  · cases h
  split at h
  · cases h
  · exact ⟨not_not.mp own, by assumption, by omega⟩

/-- A write of a callback: the handle is one of the database, and the key and the value are
within their bounds. -/
structure Tx.Wrote (tx : Tx) (dataset : Dataset) (key : Bytes) (value : Option Bytes) : Prop where
  own : dataset.db = tx.db.handle
  short : key.length ≤ keyedMaxKeyBytes
  small : ∀ v, value = some v → (v.length : Int) ≤ dataset.info.bounds.maxValueBytes

def Tx.write (tx : Tx) (dataset : Dataset) (key : Bytes) (value : Option Bytes) : Tx :=
  { tx with writes := tx.writes.insert (backendRecordKey dataset.info.id key) value }

theorem Tx.put_ok {t : Tx} {value : Except String JsonText} (h : tx.put dataset key value = .ok t) :
    ∃ v, tx.Wrote dataset key (some v) ∧ t = tx.write dataset key (some v) := by
  unfold Tx.put at h
  cases valid : tx.validDataset dataset key "put" with
  | error err => simp [valid, bind, Except.bind] at h
  | ok =>
    simp only [valid, bind, Except.bind] at h
    split at h
    · cases h
    split at h
    · cases h
    · rename_i encoded small
      cases h
      obtain ⟨own, -, short⟩ := validDataset_ok valid
      refine ⟨encoded.val, ⟨own, short, ?_⟩, rfl⟩
      rintro v ⟨⟩
      omega

theorem Tx.delete_ok {t : Tx} (h : tx.delete dataset key = .ok t) :
    tx.Wrote dataset key none ∧ t = tx.write dataset key none := by
  unfold Tx.delete at h
  cases valid : tx.validDataset dataset key "delete" with
  | error err => simp [valid, bind, Except.bind] at h
  | ok =>
    simp only [valid, bind, Except.bind] at h
    cases h
    obtain ⟨own, -, short⟩ := validDataset_ok valid
    exact ⟨⟨own, short, by simp⟩, rfl⟩

/-- Every record that the callback may write has the property. -/
def TxProgram.Touches (P : Dataset → Bytes → Prop) : TxProgram → Prop
  | .get _ _ next => ∀ answer, (next answer).Touches P
  | .put dataset key _ next => P dataset key ∧ ∀ answer, (next answer).Touches P
  | .delete dataset key next => P dataset key ∧ ∀ answer, (next answer).Touches P
  | .done _ => True

theorem TxProgram.Uses.touches {P : Dataset → Prop} (h : program.Uses P) :
    program.Touches fun dataset _ => P dataset := by
  induction program with
  | get dataset key next ih => exact fun answer => ih answer (h.2 answer)
  | put dataset key value next ih | delete dataset key next ih =>
    exact ⟨h.1, fun answer => ih answer (h.2 answer)⟩
  | done outcome => trivial

/-- What holds of the writes that a callback can make holds of all it has made. -/
theorem TxProgram.forall_writes {P : Dataset → Bytes → Prop} {W : Bytes → Option Bytes → Prop}
    (touches : program.Touches P)
    (write : ∀ dataset key value, P dataset key → tx.Wrote dataset key value →
      W (backendRecordKey dataset.info.id key) value)
    (start : ∀ (key : Bytes) (value : Option Bytes), tx.writes[key]? = some value → W key value) :
    ∀ (key : Bytes) (value : Option Bytes), (program.run tx).writes[key]? = some value →
      W key value := by
  have next (tx : Tx) (start : ∀ (key : Bytes) (value : Option Bytes),
      tx.writes[key]? = some value → W key value) (dataset : Dataset) (key : Bytes)
      (value : Option Bytes) (made : W (backendRecordKey dataset.info.id key) value) :
      ∀ (k : Bytes) (v : Option Bytes), (tx.write dataset key value).writes[k]? = some v →
        W k v := by
    intro k v get
    rw [Tx.write, ExtTreeMap.getElem?_insert] at get
    split at get
    · rename_i same
      obtain rfl := LawfulEqCmp.eq_of_compare same
      obtain rfl := Option.some_inj.mp get
      exact made
    · exact start k v get
  induction program generalizing tx with
  | get dataset key _ ih => exact ih _ (touches _) write start
  | put dataset key value _ ih =>
    rw [TxProgram.run]
    split
    · rename_i t ok
      obtain ⟨v, wrote, rfl⟩ := Tx.put_ok ok
      exact @ih none (tx.write dataset key (some v)) (touches.2 _)
        (fun dataset key value here wrote =>
          write dataset key value here ⟨wrote.1, wrote.2, wrote.3⟩)
        (next tx start dataset key _ (write _ _ _ touches.1 wrote))
    · exact ih _ (touches.2 _) write start
  | delete dataset key _ ih =>
    rw [TxProgram.run]
    split
    · rename_i t ok
      obtain ⟨wrote, rfl⟩ := Tx.delete_ok ok
      exact @ih none (tx.write dataset key none) (touches.2 _)
        (fun dataset key value here wrote =>
          write dataset key value here ⟨wrote.1, wrote.2, wrote.3⟩)
        (next tx start dataset key _ (write _ _ _ touches.1 wrote))
    · exact ih _ (touches.2 _) write start
  | done outcome => exact start

/-- A handle whose values fit the store. -/
def Dataset.Within (db : KeyedDB) (dataset : Dataset) : Prop :=
  dataset.info.bounds.maxValueBytes ≤ db.options.maxValueBytes

theorem backendRecordKey_admitted (format : db.format = .catalog) (id : UInt64)
    (short : key.length ≤ keyedMaxKeyBytes) :
    backendRecordKey id key ≠ [] ∧ (backendRecordKey id key).length ≤ db.maxStoredKeyBytes := by
  refine ⟨by simp [backendRecordKey], ?_⟩
  simp only [length_backendRecordKey, KeyedDB.maxStoredKeyBytes, format]
  omega

theorem TxProgram.admitted (program : TxProgram) {tx : Tx} (format : tx.db.keyed.format = .catalog)
    (within : program.Uses (Dataset.Within tx.db.keyed))
    (h : Admitted tx.db.keyed tx.writes) : Admitted tx.db.keyed (program.run tx).writes := by
  refine TxProgram.forall_writes within.touches (fun dataset key value within wrote => ?_) h
  obtain ⟨nonempty, fits⟩ := backendRecordKey_admitted format dataset.info.id wrote.short
  refine ⟨nonempty, fits, fun v eq => ?_⟩
  have small := wrote.small v eq
  have bound : dataset.info.bounds.maxValueBytes ≤ tx.db.keyed.options.maxValueBytes := within
  omega

/-- The callbacks that `SubmitKeyed` and `Mutate` run on a store. -/
inductive ApiCallback (db : KeyedDB) : MutationFunc → Prop where
  | keyed (format : db.format = .keyed) (program : KeyedProgram) : ApiCallback db program.run
  | catalog (format : db.format = .catalog) (database : Database) (program : TxProgram)
      (within : program.Uses (Dataset.Within db)) : ApiCallback db (database.mutation program)

theorem Database.writes_mutation (database : Database) (program : TxProgram) (tx : KeyedTx) :
    (database.mutation program tx).writes =
      (program.run { db := { database with keyed := tx.db }, writes := tx.writes }).writes := by
  simp only [Database.mutation]
  split
  · split <;> rfl
  · rfl

theorem ApiCallback.admitted {db : KeyedDB} {callback : MutationFunc}
    (api : ApiCallback db callback) : Admitted db (callback { db := db }).writes := by
  cases api with
  | keyed _ program => exact program.admitted (Admitted.empty db)
  | catalog format database program within =>
    rw [Database.writes_mutation]
    exact @TxProgram.admitted program { db := { database with keyed := db } } format within
      (Admitted.empty db)

/-! ## The checks of recovery -/

structure AcceptsWrite (db : KeyedDB) (m : KeyedMutation) : Prop where
  nonempty : m.key ≠ []
  short : m.key.length ≤ db.maxStoredKeyBytes
  bare : m.delete = true → m.value = []
  small : m.value.length ≤ db.options.maxValueBytes
  json : m.delete = false → Json.valid m.value = true

def writtenBytes (ms : List KeyedMutation) : Nat :=
  (ms.map fun m => m.key.length + m.value.length).sum

theorem validateMutations_ok {ms : List KeyedMutation} {seen : List Bytes} {total result : Nat} :
    validateMutations db ms seen total = .ok result ↔
      (∀ m ∈ ms, AcceptsWrite db m) ∧ (∀ m ∈ ms, m.key ∉ seen) ∧ (ms.map (·.key)).Nodup ∧
        result = total + writtenBytes ms := by
  induction ms generalizing seen total with
  | nil => simp [validateMutations, writtenBytes, eq_comm]
  | cons m ms ih =>
    rw [validateMutations]
    constructor
    · intro h
      split_ifs at h with nonempty short fresh bare small json
      obtain ⟨accepts, unseen, nodup, sum⟩ := ih.mp h
      refine ⟨?_, ?_, ?_, ?_⟩
      · rw [List.forall_mem_cons]
        exact ⟨⟨nonempty, by omega, by grind, by omega, by grind⟩, accepts⟩
      · rw [List.forall_mem_cons]
        exact ⟨fresh, fun q hq => fun mem => unseen q hq (List.mem_cons_of_mem _ mem)⟩
      · rw [List.map_cons, List.nodup_cons]
        refine ⟨fun mem => ?_, nodup⟩
        obtain ⟨q, hq, same⟩ := List.mem_map.mp mem
        exact unseen q hq (by simp [same])
      · simp only [writtenBytes, List.map_cons, List.sum_cons] at sum ⊢
        omega
    · rintro ⟨accepts, unseen, nodup, sum⟩
      obtain ⟨⟨nonempty, short, bare, small, json⟩, accepts⟩ := List.forall_mem_cons.mp accepts
      obtain ⟨fresh, unseen⟩ := List.forall_mem_cons.mp unseen
      rw [List.map_cons, List.nodup_cons] at nodup
      rw [if_neg nonempty, if_neg (by omega), if_neg fresh, if_neg (by grind), if_neg (by omega),
        if_neg (by grind)]
      refine ih.mpr ⟨accepts, ?_, nodup.2, ?_⟩
      · intro q hq mem
        rcases List.mem_cons.mp mem with same | mem
        · exact nodup.1 (List.mem_map.mpr ⟨q, hq, same⟩)
        · exact unseen q hq mem
      · simp only [writtenBytes, List.map_cons, List.sum_cons] at sum ⊢
        omega

/-- What recovery asks of a record. -/
structure AcceptsRecord (db : KeyedDB) (r : KeyedWALRecord) : Prop where
  named : r.commandID ≠ []
  id_short : r.commandID.length ≤ keyedMaxIdentityBytes
  code_short : r.code.length ≤ keyedMaxCodeBytes
  result_small : r.result.length ≤ db.options.maxValueBytes
  result_json : r.result ≠ [] → Json.valid r.result = true
  rejected_bare : r.applied = false → r.mutations = []
  writes : ∀ m ∈ r.mutations, AcceptsWrite db m
  distinct : (r.mutations.map (·.key)).Nodup
  total : writtenBytes r.mutations ≤ db.options.maxTransactionBytes

theorem validateKeyedRecord_ok {r : KeyedWALRecord} :
    validateKeyedRecord db r = .ok () ↔ AcceptsRecord db r := by
  unfold validateKeyedRecord
  constructor
  · intro h
    split at h
    · cases h
    split at h
    · cases h
    split at h
    · cases h
    split at h
    · cases h
    split at h
    · cases h
    split at h
    · cases h
    split at h
    · cases h
    rename_i named id code small json rejected _ total loop
    split at h
    · cases h
    obtain ⟨writes, -, distinct, rfl⟩ := validateMutations_ok.mp loop
    exact ⟨named, by omega, by omega, by omega, by grind, by grind, writes, distinct, by omega⟩
  · rintro ⟨named, id, code, small, json, rejected, writes, distinct, total⟩
    have loop : validateMutations db r.mutations [] 0 = .ok (0 + writtenBytes r.mutations) :=
      validateMutations_ok.mpr ⟨writes, by simp, distinct, rfl⟩
    rw [if_neg named, if_neg (by omega), if_neg (by omega), if_neg (by omega), if_neg (by grind),
      if_neg (by grind), loop]
    simp only
    rw [if_neg (by omega)]

/-! ## Where writer and recovery agree -/

/-- The callback's run can be recovered: its JSON is nested no deeper than the reader accepts,
and all its writes together, keys of deletions included, fit a transaction. -/
def Recoverable (db : KeyedDB) (run : MutationRun) : Prop :=
  match run.outcome with
  | .rejected _ (some result) => Json.valid result.val = true
  | .returned (.ok encoded) =>
    Json.valid encoded.val = true ∧
      (∀ (key value : Bytes), run.writes[key]? = some (some value) → Json.valid value = true) ∧
      writtenBytes (run.writes.toList.map writeMutation) ≤ db.options.maxTransactionBytes
  | _ => True

theorem finalize_ok {ms : List KeyedMutation} (h : finalize db writes = .ok ms) :
    ms = writes.toList.map writeMutation ∧
      ms.foldl (countWrite db.records) db.records.size ≤ db.options.maxRecords := by
  simp only [finalize] at h
  split_ifs at h
  cases h
  exact ⟨rfl, by omega⟩

theorem key_writeMutation (write : Bytes × Option Bytes) : (writeMutation write).key = write.1 := by
  unfold writeMutation
  split <;> rfl

theorem nodup_keys_writeMutation (writes : Writes) :
    ((writes.toList.map writeMutation).map (·.key)).Nodup := by
  rw [List.map_map, show (fun m : KeyedMutation => m.key) ∘ writeMutation = Prod.fst from
    funext key_writeMutation, ExtTreeMap.map_fst_toList_eq_keys]
  exact ExtTreeMap.nodup_keys

/-- The admitted writes pass the checks of recovery if their values can be read. -/
theorem Admitted.accepts (h : Admitted db writes) :
    (∀ m ∈ writes.toList.map writeMutation, AcceptsWrite db m) ↔
      ∀ (key value : Bytes), writes[key]? = some (some value) → Json.valid value = true := by
  constructor
  · intro all key value get
    have mem := ExtTreeMap.mem_toList_iff_getElem?_eq_some.mpr get
    exact (all _ (List.mem_map_of_mem mem)).json rfl
  · intro json m hm
    obtain ⟨⟨key, value⟩, mem, rfl⟩ := List.mem_map.mp hm
    have get := ExtTreeMap.mem_toList_iff_getElem?_eq_some.mp mem
    obtain ⟨nonempty, short, small⟩ := h key value get
    cases value with
    | none => exact ⟨nonempty, short, fun _ => rfl, Nat.zero_le _, by simp [writeMutation]⟩
    | some v =>
      exact ⟨nonempty, short, by simp [writeMutation], small v rfl, fun _ => json key v get⟩

theorem wellFormed_ne_nil {text : Bytes} (h : Json.WellFormed text) : text ≠ [] := by
  rintro rfl
  obtain ⟨depth, h⟩ := h
  cases depth <;> simp [Json.parseWithin, Json.parseValue, Json.parseScalar] at h

/-- A decision passes the checks of recovery, against the state it was made on, exactly if the
callback's run can be recovered. -/
theorem accepts_decided_iff {id : Bytes} {callback : MutationFunc} {record : KeyedWALRecord}
    (api : ApiCallback db callback)
    (decided : executeKeyed db id (some callback) = .decided record) :
    (AcceptsRecord db record ↔ Recoverable db (callback { db := db })) ∧
      validateKeyedApply db record = .ok () := by
  obtain ⟨trimmed, short, -, run, eq, decided⟩ := executeKeyed_eq_decided decided
  cases eq
  have named : id ≠ [] := by rintro rfl; exact trimmed rfl
  obtain ⟨code, result, outcome, -, code_short, small, rfl⟩ |
    ⟨encoded, ms, outcome, small, final, rfl⟩ := decideKeyed_eq_decided decided
  · refine ⟨⟨fun h => ?_, fun h => ?_⟩, rfl⟩
    · cases result with
      | none => simp [Recoverable, outcome]
      | some text =>
        simp only [Recoverable, outcome]
        exact h.result_json (wellFormed_ne_nil text.2)
    · refine ⟨named, short, code_short, small, ?_, fun _ => rfl, by simp, by simp,
        Nat.zero_le _⟩
      cases result with
      | none => simp
      | some text =>
        simp only [Recoverable, outcome] at h
        exact fun _ => h
  · obtain ⟨rfl, count⟩ := finalize_ok final
    have writes := api.admitted.accepts
    refine ⟨?_, ?_⟩
    · simp only [Recoverable, outcome]
      constructor
      · intro h
        exact ⟨h.result_json (wellFormed_ne_nil encoded.2), writes.mp h.writes, h.total⟩
      · rintro ⟨json, values, total⟩
        exact ⟨named, short, Nat.zero_le _, small, fun _ => json, by simp, writes.mpr values,
          nodup_keys_writeMutation _, total⟩
    · rw [validateKeyedApply, if_neg (by simp), if_neg (by simp only; omega)]

end OctetDB
