import OctetDB.Catalog.Cursor
import OctetDB.Keyed.Acknowledge
import OctetDB.Keyed.Reopen

/-!
# Transactions are isolated

A callback reads the records as its own writes leave them. A decision that is accepted leaves
the store with exactly these records; every other answer leaves records and key lists alone. The
bounds of a transaction do not bound the frame of its decision, so without any failure of
storage a decision may be too large for the log, and that is the only way for a caller to poison
the handle.
-/

namespace OctetDB

open Std

/-! ## What a transaction reads -/

abbrev View := UInt64 → Bytes → Option Bytes

def View.write (view : View) (id : UInt64) (key : Bytes) (value : Option Bytes) : View :=
  fun id' key' => if id' = id ∧ key' = key then value else view id' key'

def Database.view (db : Database) : View :=
  fun id key => db.keyed.records[backendRecordKey id key]?

/-- The records as reads of the transaction see them. -/
def Tx.view (tx : Tx) : View :=
  fun id key => { db := tx.db.keyed, writes := tx.writes : KeyedTx }.visible
    (backendRecordKey id key)

/-- A callback on the records themselves: a read is answered with the record as it is, and an
admitted write changes it at once. -/
def TxProgram.runView (tx : Tx) : TxProgram → View → View × MutationOutcome
  | .get dataset key next, view =>
    runView tx
      (next ((tx.validDataset dataset key "get").map fun _ => view dataset.info.id key)) view
  | .put dataset key value next, view =>
    match tx.put dataset key value with
    | .ok _ =>
      runView tx (next none) (view.write dataset.info.id key (value.toOption.map Subtype.val))
    | .error err => runView tx (next (some err)) view
  | .delete dataset key next, view =>
    match tx.delete dataset key with
    | .ok _ => runView tx (next none) (view.write dataset.info.id key none)
    | .error err => runView tx (next (some err)) view
  | .done outcome, view => (view, outcome)

theorem Tx.view_write (tx : Tx) (dataset : Dataset) (key : Bytes) (value : Option Bytes) :
    (tx.write dataset key value).view = tx.view.write dataset.info.id key value := by
  funext id' key'
  simp only [Tx.view, View.write, KeyedTx.visible, Tx.write, ExtTreeMap.getElem?_insert,
    Std.compare_eq_iff_eq, backendRecordKey_inj]
  grind

section Calls

variable {tx start : Tx} (same : tx.db = start.db)

include same

/-- What is admitted does not depend on the writes before. -/
theorem Tx.validDataset_eq (dataset : Dataset) (key : Bytes) (op : String) :
    tx.validDataset dataset key op = start.validDataset dataset key op := by
  rw [Tx.validDataset, same, Tx.validDataset]

theorem Tx.put_eq (dataset : Dataset) (key : Bytes) (value : Except String JsonText) :
    tx.put dataset key value = (start.put dataset key value).map fun _ =>
      tx.write dataset key (value.toOption.map Subtype.val) := by
  simp only [Tx.put, Tx.validDataset_eq same]
  cases start.validDataset dataset key "put" with
  | error err => rfl
  | ok =>
    cases value with
    | error message => rfl
    | ok encoded =>
      simp only [bind, Except.bind]
      split <;> rfl

theorem Tx.delete_eq (dataset : Dataset) (key : Bytes) :
    tx.delete dataset key = (start.delete dataset key).map fun _ => tx.write dataset key none := by
  simp only [Tx.delete, Tx.validDataset_eq same]
  cases start.validDataset dataset key "delete" <;> rfl

/-- Every read of a callback sees the last write of the record in the transaction, and the
committed record if there is none. -/
theorem TxProgram.runView_eq (program : TxProgram) : program.runView start tx.view =
    ({ tx with writes := (program.run tx).writes : Tx }.view, (program.run tx).outcome) := by
  induction program generalizing tx with
  | get dataset key next ih =>
    have answer : tx.get dataset key =
        (start.validDataset dataset key "get").map fun _ => tx.view dataset.info.id key := by
      rw [Tx.get, Tx.validDataset_eq same]
      cases start.validDataset dataset key "get" <;> rfl
    rw [runView, run, ← answer, ih _ same]
  | put dataset key value next ih =>
    rw [runView, run, Tx.put_eq same]
    cases start.put dataset key value with
    | error err => exact ih _ same
    | ok _ =>
      rw [← tx.view_write]
      exact @ih _ (tx.write _ _ _) same
  | delete dataset key next ih =>
    rw [runView, run, Tx.delete_eq same]
    cases start.delete dataset key with
    | error err => exact ih _ same
    | ok _ =>
      rw [← tx.view_write]
      exact @ih _ (tx.write _ _ _) same
  | done outcome => rfl

end Calls

/-! ## What a decision leaves -/

/-- Writes to distinct keys do not come in each other's way. -/
theorem getElem?_foldl_applyMutation_of_nodup {ms : List KeyedMutation}
    (distinct : (ms.map (·.key)).Nodup) (records : ByteMap Bytes) :
    (∀ key, key ∉ ms.map (·.key) → (ms.foldl applyMutation records)[key]? = records[key]?) ∧
      ∀ m ∈ ms, (ms.foldl applyMutation records)[m.key]? =
        if m.delete then none else some m.value := by
  induction ms generalizing records with
  | nil => simp
  | cons m ms ih =>
    rw [List.map_cons, List.nodup_cons] at distinct
    obtain ⟨old, new⟩ := ih distinct.2 (applyMutation records m)
    refine ⟨fun key other => ?_, List.forall_mem_cons.mpr ⟨?_, new⟩⟩
    · obtain ⟨here, later⟩ := not_or.mp (List.mem_cons.not.mp other)
      rw [List.foldl_cons, old key later, applyMutation]
      have differ : m.key ≠ key := Ne.symm here
      split <;> simp [ExtTreeMap.getElem?_erase, ExtTreeMap.getElem?_insert, differ]
    · rw [List.foldl_cons, old _ distinct.1, applyMutation]
      split <;> simp

/-- The writes of a transaction leave the records that its reads see. -/
theorem Tx.view_applied (tx : Tx) (id : UInt64) (key : Bytes) :
    ((tx.writes.toList.map writeMutation).foldl applyMutation
      tx.db.keyed.records)[backendRecordKey id key]? = tx.view id key := by
  obtain ⟨old, new⟩ := getElem?_foldl_applyMutation_of_nodup (nodup_keys_writeMutation tx.writes)
    tx.db.keyed.records
  simp only [Tx.view, KeyedTx.visible]
  cases get : tx.writes[backendRecordKey id key]? with
  | none =>
    refine old _ fun mem => ?_
    obtain ⟨m, mem, same⟩ := List.mem_map.mp mem
    obtain ⟨⟨k, v⟩, listed, rfl⟩ := List.mem_map.mp mem
    rw [key_writeMutation] at same
    rw [← same, ExtTreeMap.mem_toList_iff_getElem?_eq_some.mp listed] at get
    cases get
  | some value =>
    have mem := ExtTreeMap.mem_toList_iff_getElem?_eq_some.mpr get
    have stored := new _ (List.mem_map_of_mem mem)
    rw [key_writeMutation] at stored
    rw [stored]
    cases value <;> rfl

theorem getD_foldl_applyQueryKeyMutation {ms : List KeyedMutation} {id : UInt64}
    (other : ∀ m ∈ ms, backendDatasetID m.key ≠ some id) (queryKeys : WordMap (List Bytes)) :
    (ms.foldl applyQueryKeyMutation queryKeys).getD id [] = queryKeys.getD id [] := by
  induction ms generalizing queryKeys with
  | nil => rfl
  | cons m ms ih =>
    obtain ⟨here, later⟩ := List.forall_mem_cons.mp other
    rw [List.foldl_cons, ih later]
    unfold applyQueryKeyMutation
    cases named : backendDatasetID m.key with
    | none => rfl
    | some id' =>
      have differ : id' ≠ id := fun same => here (by rw [named, same])
      simp only
      split_ifs <;> simp [ExtTreeMap.getD_insert, differ]

theorem other_of_unwritten {writes : Writes} {id : UInt64}
    (unwritten : ∀ key, backendRecordKey id key ∉ writes) :
    ∀ m ∈ writes.toList.map writeMutation, backendDatasetID m.key ≠ some id := by
  intro m mem named
  obtain ⟨⟨key, value⟩, listed, rfl⟩ := List.mem_map.mp mem
  rw [key_writeMutation, backendDatasetID_eq_some] at named
  refine unwritten (key.drop 9) (named ▸ ?_)
  exact ExtTreeMap.mem_iff_isSome_getElem?.mpr
    (by rw [ExtTreeMap.mem_toList_iff_getElem?_eq_some.mp listed]; rfl)

theorem scanLoop_congr {records records' : ByteMap Bytes} {id : UInt64}
    (same : ∀ key, records[backendRecordKey id key]? = records'[backendRecordKey id key]?)
    (visit : Visit) (cancelled : Nat → Option String) (keys : List Bytes)
    (seen : List (Bytes × Bytes)) :
    scanLoop records id visit cancelled keys seen =
      scanLoop records' id visit cancelled keys seen := by
  induction keys generalizing seen with
  | nil => rfl
  | cons key keys ih =>
    simp only [scanLoop, ExtTreeMap.getD_eq_getD_getElem?, same, ih]

/-- The database when the loop over a group has come to a state. -/
def GroupState.database (s : GroupState) (db : Database) : Database :=
  { db with keyed := s.db, queryKeys := s.applied.foldl applyQueryKeyMutations db.queryKeys }

/-- The request was decided now, and the decision is applied. -/
def KeyedCommitResult.Accepted (r : KeyedCommitResult) : Prop :=
  r.err = none ∧ r.panicValue = none ∧ r.decision.applied = true ∧ r.decision.duplicate = false

/-- Every read of a callback sees the records as the transaction has left them so far. If its
decision is accepted, the records are those that a further read would have seen, datasets
without a write are read and scanned as before, and the store has as many records as the writer
has counted. With any other answer nothing is written. -/
theorem transaction_isolated (db : Database) (faults : Faults) (s : GroupState)
    (cancelled : Option String) (id : Bytes) (program : TxProgram) :
    let tx : Tx := { db := { db with keyed := s.db } }
    let run := program.run tx
    let last : Tx := { tx with writes := run.writes }
    let t := groupStep faults s ⟨cancelled, id, some (db.mutation program)⟩
    program.runView tx tx.db.view = (last.view, run.outcome) ∧
    ∃ result, t.results = s.results ++ [result] ∧
      (result.Accepted → (t.database db).view = last.view ∧
        (∀ dataset : Dataset, (∀ key, backendRecordKey dataset.info.id key ∉ run.writes) →
          (∀ key, (t.database db).view dataset.info.id key =
            (s.database db).view dataset.info.id key) ∧
          ∀ visit cancelled, (t.database db).scan dataset visit cancelled =
            (s.database db).scan dataset visit cancelled) ∧
        (t.db.records.size : Int) =
          (run.writes.toList.map writeMutation).foldl (countWrite s.db.records) s.db.records.size) ∧
      (¬ result.Accepted → t.db.records = s.db.records ∧
        (t.database db).queryKeys = (s.database db).queryKeys ∧
        t.applied.flatMap (·.mutations) = s.applied.flatMap (·.mutations)) := by
  intro tx run last t
  have start : tx.view = tx.db.view := by
    funext id key
    simp [Tx.view, KeyedTx.visible, Database.view, tx]
  refine ⟨start ▸ program.runView_eq rfl, ?_⟩
  have effect : GroupStep faults s _ t := groupStep_spec faults s _
  generalize t = t at effect ⊢
  cases effect with
  | poisoned | cancelled | refused | panicked | failed =>
    exact ⟨_, rfl, by simp [KeyedCommitResult.Accepted], fun _ => ⟨rfl, rfl, rfl⟩⟩
  | repeated =>
    refine ⟨_, rfl, ?_, fun _ => ⟨rfl, rfl, rfl⟩⟩
    simp [KeyedCommitResult.Accepted, KeyedDecision.asDuplicate]
  | duplicate _ _ decided =>
    obtain ⟨r, -, rfl⟩ := executeKeyed_eq_duplicate decided
    refine ⟨_, rfl, ?_, fun _ => ⟨rfl, rfl, rfl⟩⟩
    simp [KeyedCommitResult.Accepted, KeyedDecision.asDuplicate]
  | @accepted record wal live decided append =>
    refine ⟨_, rfl, ?_⟩
    obtain ⟨-, -, -, _, ⟨⟩, decided⟩ := executeKeyed_eq_decided decided
    obtain ⟨code, result, -, -, -, -, rfl⟩ | ⟨encoded, ms, -, -, final, rfl⟩ :=
      decideKeyed_eq_decided decided
    · refine ⟨by simp [KeyedCommitResult.Accepted, KeyedWALRecord.decision], fun _ => ⟨rfl, ?_, ?_⟩⟩
      · simp [GroupState.database, GroupState.answer, GroupState.accept, applyQueryKeyMutations]
      · simp [GroupState.answer, GroupState.accept]
    · have writes : (db.mutation program { db := s.db }).writes = run.writes :=
        Database.writes_mutation db program _
      obtain ⟨rfl, -⟩ := finalize_ok final
      rw [writes]
      refine ⟨fun _ => ⟨?_, fun dataset unwritten => ?_, ?_⟩, fun refused => ?_⟩
      · funext id key
        exact last.view_applied id key
      · have views (key : Bytes) : last.view dataset.info.id key =
            s.db.records[backendRecordKey dataset.info.id key]? := by
          rw [Tx.view, KeyedTx.visible, ExtTreeMap.getElem?_eq_none (unwritten key)]
        refine ⟨fun key => (last.view_applied _ key).trans (views key), fun visit cancelled => ?_⟩
        have lists := getD_foldl_applyQueryKeyMutation (other_of_unwritten unwritten)
          (s.database db).queryKeys
        simp only [Database.scan, GroupState.database, GroupState.answer, GroupState.accept,
          List.foldl_append, List.foldl_cons, List.foldl_nil, applyQueryKeyMutations, if_true]
          at lists ⊢
        rw [lists]
        exact scanLoop_congr (fun key => (last.view_applied _ key).trans (views key)) _ _ _ _
      · exact size_foldl_applyMutation (nodup_keys_writeMutation run.writes) fun _ _ => Iff.rfl
      · exact absurd ⟨rfl, rfl, rfl, rfl⟩ refused

/-! ## Decisions too large for the log -/

/-- If the request is decided now, the frame of the decision is within the limit. -/
def GroupState.Framed (s : GroupState) (request : KeyedCommitRequest) : Prop :=
  s.db.poisoned = false → request.cancelled = none → s.stagedDecision request.commandID = none →
    ∀ record, executeKeyed s.db request.commandID request.mutation = .decided record →
      record.marshal.length ≤ maxKeyedFrameBytes

theorem poisoned_groupStep_iff (s : GroupState) (request : KeyedCommitRequest) :
    (groupStep {} s request).db.poisoned = s.db.poisoned ↔ s.Framed request := by
  unfold groupStep GroupState.Framed
  cases dead : s.db.poisoned with
  | true => simp [GroupState.answer, dead]
  | false =>
    cases request.cancelled with
    | some message => simp [GroupState.answer, dead]
    | none =>
      cases s.stagedDecision request.commandID with
      | some decision => simp [GroupState.answer, dead]
      | none =>
        cases executeKeyed s.db request.commandID request.mutation with
        | decided record =>
          simp only [GroupState.stage, appendKeyedFrame]
          by_cases large : record.marshal.length > maxKeyedFrameBytes
          · simp [large, GroupState.answer, GroupState.fail, KeyedDB.poison]
          · simp [large, GroupState.answer, GroupState.accept, dead]
            omega
        | _ => simp [GroupState.answer, dead]

theorem poisoned_of_poisoned {s : GroupState} (dead : s.db.poisoned = true)
    (requests : List KeyedCommitRequest) :
    (requests.foldl (groupStep {}) s).db.poisoned = true := by
  induction requests generalizing s with
  | nil => exact dead
  | cons request requests ih =>
    refine ih ?_
    simp [groupStep, dead, GroupState.answer]

/-- A group on sound storage leaves the handle as it was exactly if every frame fits. -/
theorem poisoned_foldl_iff (s : GroupState) (requests : List KeyedCommitRequest) :
    (requests.foldl (groupStep {}) s).db.poisoned = s.db.poisoned ↔
      ∀ before request after, requests = before ++ request :: after →
        (before.foldl (groupStep {}) s).Framed request := by
  induction requests generalizing s with
  | nil => simp
  | cons request requests ih =>
    have step := poisoned_groupStep_iff s request
    have later := ih (groupStep {} s request)
    constructor
    · intro same before r after split
      have here : (groupStep {} s request).db.poisoned = s.db.poisoned := by
        cases dead : s.db.poisoned with
        | true => exact poisoned_of_poisoned dead [request]
        | false =>
          by_contra now
          rw [List.foldl_cons, poisoned_of_poisoned (by simpa using now), dead] at same
          cases same
      cases before with
      | nil =>
        obtain ⟨rfl, rfl⟩ := List.cons.inj split
        exact step.mp here
      | cons first before =>
        obtain ⟨rfl, rfl⟩ := List.cons.inj split
        exact later.mp (by rw [here]; exact same) before r after rfl
    · intro framed
      have here := step.mpr (framed [] request requests rfl)
      rw [List.foldl_cons, ← here]
      exact later.mpr fun before r after split =>
        framed (request :: before) r after (by rw [split]; rfl)

theorem poisoned_processCommitGroup (db : KeyedDB) (wal : Bytes)
    (requests : List KeyedCommitRequest) : (processCommitGroup {} db wal requests).db.poisoned =
      (requests.foldl (groupStep {}) (.start db wal requests.length)).db.poisoned := by
  have failed : ∀ s : GroupState, (s.storageErr ≠ none → s.db.poisoned = true) →
      (requests.foldl (groupStep {}) s).storageErr ≠ none →
        (requests.foldl (groupStep {}) s).db.poisoned = true := by
    induction requests with
    | nil => exact fun _ h => h
    | cons request requests ih =>
      intro s h
      refine ih _ ?_
      have effect := groupStep_spec {} s request
      generalize groupStep {} s request = t at effect ⊢
      cases effect with
      | failed => exact fun _ => rfl
      | _ => exact h
  have done := failed (.start db wal requests.length) (by simp [GroupState.start])
  simp only [processCommitGroup, GroupState.finish, Option.map_none]
  generalize requests.foldl (groupStep {}) (.start db wal requests.length) = s at done ⊢
  cases err : s.storageErr with
  | none => simp
  | some err => simp [KeyedDB.poison, *]

/-- Without a failure of storage, a group of requests leaves the handle as ready for further
requests as it was exactly if the frame of every decision is within the limit. -/
theorem caller_keeps_handle_iff (host : Host) (size : Nat) :
    ((host.commit size {}).db.keyed.poisoned = host.db.keyed.poisoned ∧
        ∀ ctx mutation, (host.commit size {}).db.submit ctx mutation =
          host.db.submit ctx mutation) ↔
      ∀ before request after, host.requests size = before ++ request :: after →
        (host.turn size {} before).Framed request := by
  have closed : (host.commit size {}).db.keyed.closed = host.db.keyed.closed :=
    processCommitGroup_induction (P := fun db _ _ => db.closed = host.db.keyed.closed) rfl
      (fun _ _ _ _ _ _ _ _ h _ _ _ => h) (fun _ _ _ _ _ _ _ _ _ h _ _ _ => h) fun _ _ _ h => h
  have poisoned : (host.commit size {}).db.keyed.poisoned = _ :=
    poisoned_processCommitGroup host.db.keyed (host.dir.wal.getD []) (host.requests size)
  have framed := poisoned_foldl_iff
    (.start host.db.keyed (host.dir.wal.getD []) (host.requests size).length) (host.requests size)
  rw [← poisoned] at framed
  refine ⟨fun kept => framed.mp kept.1, fun frames => ⟨framed.mpr frames, fun ctx mutation => ?_⟩⟩
  have same : (host.commit size {}).db.keyed.poisoned = host.db.keyed.poisoned := framed.mpr frames
  simp only [Database.submit, closed, same]

theorem KeyedWALRecord.length_result_le (r : KeyedWALRecord) :
    r.result.length ≤ r.marshal.length := by
  by_cases empty : r.result = []
  · simp [empty]
  have value : r.result.length ≤ (Json.encodeBytes r.result).render.length := by
    rw [Json.encodeBytes, if_neg empty, Json.render]
    exact (Base64.length_le_encode r.result).trans (Json.length_le_quote _)
  rw [KeyedWALRecord.marshal, KeyedWALRecord.toJson, Json.render, List.length_cons,
    List.length_append]
  refine (value.trans ?_).trans (Nat.le_add_right _ _ |>.trans (Nat.le_succ _))
  apply Json.length_le_renderMembers (m := (ascii "result", Json.encodeBytes r.result))
  simp [empty]

/-- The options allow a result that is too long for a frame, and it poisons a new handle. -/
theorem large_result_poisons : ∃ (text : JsonText) (host : Host) (answers : List Answer),
    openCatalog 0 zeroIdentity none ⟨0, 0, text.val.length, text.val.length⟩ {} =
      .ok (host.db, host.dir) ∧
    let command : Submission :=
      { commandID := ascii "c", mutation := .catalog (some (.done (.returned (.ok text)))) }
    let last := { host with queue := [command] }.commit 1 {}
    host.Run answers last ∧ host.db.keyed.poisoned = false ∧ last.db.keyed.poisoned = true := by
  obtain ⟨text, long⟩ : ∃ text : JsonText, maxKeyedFrameBytes < text.val.length := by
    obtain ⟨s, length⟩ : ∃ s : Bytes, s.length = maxKeyedFrameBytes + 1 :=
      ⟨List.replicate _ 97, List.length_replicate⟩
    have read := Json.parse_render (.str _ s)
    have text := Json.length_le_quote s
    rw [Json.render] at read
    exact ⟨⟨Json.quote s, _, by rw [Json.parse] at read; rw [read]; rfl⟩, by simp only; omega⟩
  have nonzero : text.val.length ≠ 0 := by omega
  obtain ⟨bounds, normal, value⟩ : ∃ bounds, normalizeKeyedOptions
      ⟨0, 0, text.val.length, text.val.length⟩ = .ok bounds ∧
        bounds.maxValueBytes = text.val.length := by
    rw [normalizeKeyedOptions, dif_neg (by simp), dif_neg (by simp [orDefault, nonzero])]
    exact ⟨_, rfl, by simp [orDefault, nonzero]⟩
  let host : Host := { newDatabase with
    db := { newDatabase.db with keyed := .blank bounds .catalog } }
  have opened : openCatalog 0 zeroIdentity none ⟨0, 0, text.val.length, text.val.length⟩ {} =
      .ok (host.db, host.dir) := by
    rw [openCatalog, openKeyed_empty normal]
    rfl
  let command : Submission :=
    { commandID := ascii "c", mutation := .catalog (some (.done (.returned (.ok text)))) }
  have run := @Host.Run.mutate host .live command {} rfl rfl rfl rfl
  refine ⟨text, host, _, opened, run, rfl, ?_⟩
  have decided : executeKeyed host.db.keyed (ascii "c")
        (some (host.db.mutation (.done (.returned (.ok text))))) =
      .decided { sequence := 1, commandID := ascii "c", applied := true, result := text.val } := by
    have returns : host.db.mutation (.done (.returned (.ok text))) { db := host.db.keyed } =
        ⟨∅, .returned (.ok text)⟩ := rfl
    unfold executeKeyed
    rw [if_neg (by decide), if_neg (by decide)]
    have unwritten : (∅ : Writes).toList = [] := rfl
    simp only [returns, decideKeyed]
    simp [host, KeyedDB.blank, value, finalize, unwritten,
      show ¬ (bounds.maxRecords : Int) < 0 by omega]
  by_contra sane
  have poisoned := poisoned_processCommitGroup host.db.keyed [] [command.request host.db]
  have framed := (poisoned_groupStep_iff (.start host.db.keyed [] 1) (command.request host.db)).mp
    (poisoned.symm.trans (Bool.not_eq_true _ ▸ sane)) rfl rfl rfl _ decided
  have := KeyedWALRecord.length_result_le
    { sequence := 1, commandID := ascii "c", applied := true, result := text.val }
  simp only at this
  omega

end OctetDB
