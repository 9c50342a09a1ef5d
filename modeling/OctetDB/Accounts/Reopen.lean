import OctetDB.Accounts.Recovery

/-!
# Opening an engine again

A snapshot of a sound bank reads back as the bank. A directory holds a bank if its snapshot
reads as a bank that the records of its log lead to it from; records that the snapshot already
has are passed over. An engine opens with the bank that its directory holds, or it has more
accounts than the configuration allows.
-/

namespace OctetDB.Accounts

/-! ## Reading a snapshot back -/

namespace Core

variable {e : Core} {entry : Entry}

theorem book_load (e : Core) (entry : Entry) (k : AccountID) :
    (e.load entry).book k = if k = entry.account.id then some entry else e.book k := by
  have found := e.find_slot_create entry.account.id entry.account.id
  rw [if_pos rfl] at found
  have modified := find_modifyRow found (fun row => { row with toEntry := entry }) k
  rw [find_slot_create] at modified
  change Option.map Row.toEntry ((e.load entry).table.find k) = _
  rw [show (e.load entry).table.find k = _ from modified]
  split <;> rfl

theorem rowsOnly_foldl_load (entries : List Entry) : e.RowsOnly (entries.foldl load e) := by
  induction entries generalizing e with
  | nil => rfl
  | cons entry entries ih => exact RowsOnly.trans (t := e.load entry) rfl ih

/-- Entries with distinct IDs make the book that has exactly them. -/
theorem book_foldl_load {entries : List Entry}
    (distinct : (entries.map (·.account.id)).Nodup) :
    (∀ entry ∈ entries, (entries.foldl load e).book entry.account.id = some entry) ∧
      ∀ k ∉ entries.map (·.account.id), (entries.foldl load e).book k = e.book k := by
  induction entries using List.reverseRecOn with
  | nil => simp
  | append_singleton before entry ih =>
    rw [List.map_append, List.nodup_append] at distinct
    obtain ⟨loaded, others⟩ := ih distinct.1
    rw [List.foldl_append, List.foldl_cons, List.foldl_nil]
    constructor
    · intro x mem
      rw [book_load]
      rcases List.mem_append.mp mem with old | new
      · have other : x.account.id ≠ entry.account.id :=
          distinct.2.2 _ (List.mem_map_of_mem old) _ (by simp)
        rw [if_neg other, loaded x old]
      · rw [List.mem_singleton.mp new, if_pos rfl]
    · intro k out
      simp only [List.map_append, List.mem_append, List.map_cons, List.map_nil,
        List.mem_singleton, not_or] at out
      rw [book_load, if_neg out.2, others k out.1]

/-- The rows of an engine are loaded as its book. -/
theorem book_load_rows {fresh : Core} (empty : ∀ k, fresh.book k = none)
    (ids : ∀ id entry, e.book id = some entry → entry.account.id = id) :
    ((e.table.rows.map fun row => row.2.toEntry).foldl load fresh).book = e.book := by
  have entries : ∀ row ∈ e.table.rows, e.book row.1 = some row.2.toEntry := by
    intro row mem
    have found := Table.find_eq_some.mpr (List.mem_iff_getElem?.mp mem)
    rw [book, found]
    rfl
  have keys : (e.table.rows.map fun row => row.2.toEntry).map (·.account.id) = e.table.keys := by
    rw [List.map_map, Table.keys]
    refine List.map_congr_left fun row mem => ?_
    exact ids _ _ (entries row mem)
  obtain ⟨loaded, others⟩ := book_foldl_load (e := fresh) (keys ▸ e.table.nodup_keys)
  funext k
  by_cases used : k ∈ e.table.keys
  · rw [Table.keys, List.mem_map] at used
    obtain ⟨row, mem, rfl⟩ := used
    have found := entries row mem
    have here := loaded _ (List.mem_map_of_mem (f := fun row : UInt64 × Row => row.2.toEntry) mem)
    rw [ids _ _ found] at here
    rw [here, found]
  · rw [others k (keys ▸ used), empty]
    rw [Table.mem_keys, ← isSome_book, Option.not_isSome_iff_eq_none] at used
    exact used.symm

end Core

/-- The numbers that a snapshot has to write fit their fields. -/
structure Core.Encodable (e : Core) : Prop where
  accounts : e.table.size < 2 ^ 32
  window : e.bounds.dedupeWindow < 2 ^ 32
  payload : e.snapshotPayload.length < 2 ^ 64

instance (e : Core) : Decidable e.Encodable :=
  decidable_of_iff (e.table.size < 2 ^ 32 ∧ e.bounds.dedupeWindow < 2 ^ 32 ∧
    e.snapshotPayload.length < 2 ^ 64)
    ⟨fun ⟨a, b, c⟩ => ⟨a, b, c⟩, fun ⟨a, b, c⟩ => ⟨a, b, c⟩⟩

/-- The snapshot reads as a bank, with an engine that has done nothing else. -/
def Reads (bounds : Bounds) (file : Option Bytes) (bank : Bank) : Prop :=
  ∃ t : Core, ({ bounds := bounds } : Core).loadSnapshot file = .ok t ∧ t.bank = bank ∧
    t.epoch = 0 ∧ Core.SameHandle { bounds := bounds } t

theorem reads_none (bounds : Bounds) : Reads bounds none {} := by
  refine ⟨{ bounds := bounds }, rfl, ?_, rfl, ⟨rfl, rfl, rfl, rfl⟩⟩
  have book : ({ bounds := bounds } : Core).book = fun _ => none := by
    funext id
    simp [Core.book]
  rw [Core.bank, book]
  rfl

theorem length_encodeLedgerEntry (entry : LedgerEntry) :
    (encodeLedgerEntry entry).length = 44 + entry.commandID.length := by
  simp [encodeLedgerEntry]
  omega

theorem length_flatMap_encodeLedgerEntry (entries : List LedgerEntry) :
    44 * entries.length ≤ (entries.flatMap encodeLedgerEntry).length := by
  induction entries with
  | nil => simp
  | cons entry entries ih =>
    simp only [List.flatMap_cons, List.length_append, List.length_cons, length_encodeLedgerEntry]
    omega

namespace Bank.Sound

variable {horizon : Nat} {bank : Bank}

theorem found (sound : bank.Sound horizon) {id : Bytes} (mem : id ∈ bank.window.dedupeIDs) :
    bank.window.dedupe[id]? = some (bank.window.dedupe.getD id {}) := by
  have known := (sound.consistent.mem_iff id).mpr mem
  obtain ⟨v, found⟩ := Option.isSome_iff_exists.mp
    (Std.ExtTreeMap.mem_iff_isSome_getElem?.mp known)
  rw [Std.ExtTreeMap.getD_eq_getD_getElem?, found]
  rfl

theorem commandIDs (sound : bank.Sound horizon) :
    (bank.window.values {}).map (·.commandID) = bank.window.dedupeIDs := by
  rw [Window.values, List.map_map]
  conv_rhs => rw [← List.map_id bank.window.dedupeIDs]
  exact List.map_congr_left fun id mem => (sound.results id _ (sound.found mem)).1

theorem rebuild (sound : bank.Sound horizon) :
    (bank.window.values {}).foldl (fun w r => w.retain horizon r.commandID r) {} =
      bank.window := by
  have length : (bank.window.values {}).length = bank.window.dedupeIDs.length := by
    rw [Window.values, List.length_map]
  rw [Window.foldl_retain_eq_addAll (by simpa [length] using sound.consistent.length_le)]
  refine sound.consistent.addAll_eq ?_ ?_
  · rw [List.map_map]
    exact sound.commandIDs
  · intro entry mem
    obtain ⟨r, value, rfl⟩ := List.mem_map.mp mem
    obtain ⟨id, found⟩ := sound.mem_values value
    rw [(sound.results id r found).1, found]

end Bank.Sound

namespace Core

variable {e : Core}

/-- The results in a snapshot are the values of the window. -/
theorem results_encoded (sound : e.bank.Sound e.bounds.dedupeWindow) :
    (e.retained.active.flatMap fun id => encodeResult id (e.retained.results.getD id {})) =
      (e.bank.window.values {}).flatMap fun r => encodeResult r.commandID r := by
  rw [Window.values, List.flatMap_map]
  change List.flatMap _ e.bank.window.dedupeIDs = _
  refine List.flatMap_congr fun id mem => ?_
  rw [(sound.results id _ (sound.found mem)).1]
  rfl

theorem window_foldl_remember (results : List Result) (window : Nat) (m : Retained) :
    (results.foldl (fun m r => m.remember window r.commandID r) m).window =
      results.foldl (fun w r => w.retain window r.commandID r) m.window := by
  induction results generalizing m with
  | nil => rfl
  | cons r results ih => rw [List.foldl_cons, List.foldl_cons, ih, Retained.window_remember]

theorem readLedger_ledger (sound : e.bank.Sound e.bounds.dedupeWindow) (rest : Bytes) :
    readLedger e.sequence e.ledger.length 0 (e.ledger.flatMap encodeLedgerEntry ++ rest) =
      .ok (e.ledger, rest) :=
  readLedger_encode sound.ledgerNamed sound.ledgerOrder sound.ledgerLe rest

theorem readResults_values (sound : e.bank.Sound e.bounds.dedupeWindow) :
    readResults e.bounds.dedupeWindow e.sequence (e.bank.window.values {}).length 0 [] {}
        ((e.bank.window.values {}).flatMap fun r => encodeResult r.commandID r) =
      .ok ((e.bank.window.values {}).foldl
        (fun m r => m.remember e.bounds.dedupeWindow r.commandID r) {}, []) := by
  have known : ∀ r ∈ e.bank.window.values {}, Named r.commandID ∧ r.duplicate = false ∧
      r.sequence ≤ e.sequence := by
    intro r mem
    obtain ⟨id, found⟩ := sound.mem_values mem
    obtain ⟨rfl, fresh, named, le⟩ := sound.results id r found
    exact ⟨named, fresh, le⟩
  have distinct : ((e.bank.window.values {}).map (·.commandID)).Nodup := by
    rw [sound.commandIDs]
    exact sound.consistent.nodup
  have read := @readResults_encode _ e.bounds.dedupeWindow _ _ [] {} (fun r mem => (known r mem).1)
    (fun r mem => (known r mem).2.1) distinct (fun _ _ => List.not_mem_nil) sound.resultsOrder
    (fun r mem => (known r mem).2.2) []
  rwa [List.append_nil] at read

/-- What a snapshot covers reads back as the bank. -/
theorem loadPayload_snapshotPayload (sound : e.bank.Sound e.bounds.dedupeWindow)
    (encodable : e.Encodable) {size : Nat} (large : e.snapshotPayload.length ≤ size) :
    ∃ t : Core, ({ bounds := e.bounds } : Core).loadPayload size e.snapshotPayload = .ok t ∧
      t.bank = e.bank ∧ t.epoch = 0 ∧ SameHandle { bounds := e.bounds } t := by
  obtain ⟨accounts, window, payload⟩ := encodable
  have bytes := length_flatMap_encodeLedgerEntry e.ledger
  have total : e.snapshotPayload.length = 8 + (4 + ((e.table.rows.flatMap fun row =>
      encodeEntry row.2.toEntry).length + (8 + ((e.ledger.flatMap encodeLedgerEntry).length +
      (4 + (4 + (e.retained.active.flatMap fun id =>
        encodeResult id (e.retained.results.getD id {})).length)))))) := by
    simp [snapshotPayload]
  have short : e.retained.active.length ≤ e.bounds.dedupeWindow := sound.consistent.length_le
  -- The counts that are written are the lengths.
  have count : (UInt32.ofNat e.table.size).toNat =
      (e.table.rows.map fun row => row.2.toEntry).length := by
    rw [UInt32.toNat_ofNat', Nat.mod_eq_of_lt accounts, List.length_map]
    rfl
  have ledgerCount : (UInt64.ofNat e.ledger.length).toNat = e.ledger.length := by
    rw [UInt64.toNat_ofNat', Nat.mod_eq_of_lt (by omega)]
  have horizon : (UInt32.ofNat e.bounds.dedupeWindow).toNat = e.bounds.dedupeWindow := by
    rw [UInt32.toNat_ofNat', Nat.mod_eq_of_lt window]
  have values : (e.bank.window.values {}).length = e.retained.active.length := by
    rw [Window.values, List.length_map]
    rfl
  have resultCount : (UInt32.ofNat e.retained.active.length).toNat =
      (e.bank.window.values {}).length := by
    rw [UInt32.toNat_ofNat', Nat.mod_eq_of_lt (by omega), values]
  have loaded := readEntries_encode (e.table.rows.map fun row => row.2.toEntry)
    { bounds := e.bounds, sequence := e.sequence }
  have onlyRows := rowsOnly_foldl_load (e := { bounds := e.bounds, sequence := e.sequence })
    (e.table.rows.map fun row => row.2.toEntry)
  have empty (k : AccountID) :
      ({ bounds := e.bounds, sequence := e.sequence } : Core).book k = none := by simp [Core.book]
  have book := book_load_rows empty sound.ids
  generalize (e.table.rows.map fun row => row.2.toEntry).foldl load
    { bounds := e.bounds, sequence := e.sequence } = t at loaded onlyRows book
  obtain ⟨results, read⟩ : ∃ results : Retained, (e.bank.window.values {}).foldl
      (fun m r => m.remember e.bounds.dedupeWindow r.commandID r) {} = results := ⟨_, rfl⟩
  have window : results.window = e.bank.window := by
    rw [← read, window_foldl_remember]
    exact sound.rebuild
  refine ⟨{ t with ledger := e.ledger, retained := results }, ?_, ?_, ?_, ?_⟩
  · have boundsT : t.bounds = e.bounds := by rw [onlyRows]
    have retainedT : t.retained = {} := by rw [onlyRows]
    have enough : ¬ size / 44 < e.ledger.length := by omega
    have fits : ¬ (e.bounds.dedupeWindow ≠ t.bounds.dedupeWindow ∨
        (e.bank.window.values {}).length > t.bounds.dedupeWindow) := by
      rw [boundsT, values]
      omega
    simp only [List.flatMap_map] at loaded
    unfold loadPayload
    rw [failIf_neg (by omega), snapshotPayload, results_encoded sound]
    simp only [bind, Except.bind, takeU64_append, takeU32_append, count, loaded, ledgerCount]
    rw [failIf_neg (by simp), failIf_neg (by exact enough)]
    simp only [readLedger_ledger sound]
    rw [failIf_neg (by simp; omega)]
    simp only [takeU32_append, horizon, resultCount]
    rw [failIf_neg fits]
    simp only [boundsT, retainedT, readResults_values sound]
    rw [failIf_neg (by simp), read]
  · rw [bank, window]
    change Bank.mk t.book e.ledger _ t.sequence = _
    rw [book, onlyRows]
    rfl
  · rw [onlyRows]
  · rw [onlyRows]
    exact ⟨rfl, rfl, rfl, rfl⟩

theorem length_encodeSnapshot (e : Core) :
    e.encodeSnapshot.length = snapshotHeaderSize + e.snapshotPayload.length := by
  have magic : snapshotMagic.length = 8 := by decide
  simp only [encodeSnapshot, List.length_append, magic, length_putUint32, length_putUint64,
    length_sha256, snapshotHeaderSize]
  omega

/-- The header of a snapshot passes its checks. -/
theorem loadSnapshot_encodeSnapshot (fresh e : Core) (payload : e.snapshotPayload.length < 2 ^ 64) :
    fresh.loadSnapshot (some e.encodeSnapshot) =
      fresh.loadPayload e.encodeSnapshot.length e.snapshotPayload := by
  have magic : snapshotMagic.length = 8 := by decide
  have size := e.length_encodeSnapshot
  obtain ⟨data, written⟩ : ∃ data, e.encodeSnapshot = data := ⟨_, rfl⟩
  have split : data = snapshotMagic ++ (putUint32 snapshotVersion ++
      (putUint64 (UInt64.ofNat e.snapshotPayload.length) ++
      (sha256 e.snapshotPayload ++ e.snapshotPayload))) := written.symm
  have front : data.take 8 = snapshotMagic := by rw [split, List.take_left' magic]
  have behind8 : data.drop 8 = putUint32 snapshotVersion ++
      (putUint64 (UInt64.ofNat e.snapshotPayload.length) ++
      (sha256 e.snapshotPayload ++ e.snapshotPayload)) := by rw [split, List.drop_left' magic]
  have behind12 : data.drop 12 = putUint64 (UInt64.ofNat e.snapshotPayload.length) ++
      (sha256 e.snapshotPayload ++ e.snapshotPayload) := by
    rw [show 12 = 8 + 4 from rfl, ← List.drop_drop, behind8, List.drop_left' (length_putUint32 _)]
  have behind20 : data.drop 20 = sha256 e.snapshotPayload ++ e.snapshotPayload := by
    rw [show 20 = 12 + 8 from rfl, ← List.drop_drop, behind12, List.drop_left' (length_putUint64 _)]
  have behind52 : data.drop snapshotHeaderSize = e.snapshotPayload := by
    rw [show snapshotHeaderSize = 20 + 32 from rfl, ← List.drop_drop, behind20,
      List.drop_left' (length_sha256 _)]
  have length : (UInt64.ofNat e.snapshotPayload.length).toNat = e.snapshotPayload.length := by
    rw [UInt64.toNat_ofNat', Nat.mod_eq_of_lt payload]
  rw [written] at size ⊢
  simp only [loadSnapshot, front, behind8, behind12, behind20, behind52, uint32_putUint32,
    uint64_putUint64, length, size, List.take_left' (length_sha256 _)]
  rw [if_neg (by simp), if_neg (by simp)]

/-- A snapshot reads back as the bank it was taken of. -/
theorem reads_encodeSnapshot (sound : e.bank.Sound e.bounds.dedupeWindow)
    (encodable : e.Encodable) : Reads e.bounds (some e.encodeSnapshot) e.bank := by
  have size := e.length_encodeSnapshot
  rw [Reads, loadSnapshot_encodeSnapshot _ _ encodable.payload]
  exact loadPayload_snapshotPayload sound encodable (by omega)

end Core

/-! ## Opening a directory -/

/-- The batches of a log lead from the bank of a snapshot to a bank. The snapshot may have been
taken while the log already had records, which come first then. -/
structure Log (horizon : Nat) (base : Bank) (batches : List (List WalRecord)) (bank : Bank) :
    Prop where
  loggable : ∀ batch ∈ batches, LoggableBatch batch
  split : ∃ stale fresh, batches.flatten = stale ++ fresh ∧
    (∀ r ∈ stale, r.sequence ≤ base.sequence) ∧ (∀ r ∈ fresh, base.sequence < r.sequence) ∧
    base.Extends horizon fresh ∧ fresh.foldl (Bank.apply horizon) base = bank
  within : ∀ r ∈ batches.flatten, r.sequence ≤ bank.sequence
  base_le : base.sequence ≤ bank.sequence

namespace Log

variable {horizon : Nat} {base bank : Bank} {batches : List (List WalRecord)}

theorem empty (horizon : Nat) (bank : Bank) : Log horizon bank [] bank :=
  ⟨by simp, ⟨[], [], rfl, by simp, by simp, trivial, rfl⟩, by simp, UInt64.le_refl _⟩

/-- A log stays one of its bank when the bank is all in the snapshot. -/
theorem installed (log : Log horizon base batches bank) : Log horizon bank batches bank :=
  ⟨log.loggable, ⟨batches.flatten, [], by simp, log.within, by simp, trivial, rfl⟩, log.within,
    UInt64.le_refl _⟩

theorem append (log : Log horizon base batches bank) {rs : List WalRecord}
    (loggable : LoggableBatch rs) (following : bank.Extends horizon rs)
    (room : bank.sequence.toNat + rs.length < 2 ^ 64) :
    Log horizon base (batches ++ [rs]) (rs.foldl (Bank.apply horizon) bank) := by
  obtain ⟨stale, fresh, split, passed, newer, extending, leads⟩ := log.split
  have within {r : WalRecord} (mem : r ∈ rs) := following.within room mem
  have grows : bank.sequence ≤ (rs.foldl (Bank.apply horizon) bank).sequence := by
    rw [UInt64.le_iff_toNat_le, following.count room]
    omega
  refine ⟨?_, ⟨stale, fresh ++ rs, ?_, passed, ?_, ?_, ?_⟩, ?_, UInt64.le_trans log.base_le grows⟩
  · intro batch mem
    rcases List.mem_append.mp mem with old | new
    · exact log.loggable batch old
    · rw [List.mem_singleton.mp new]; exact loggable
  · simp [split]
  · intro r mem
    rcases List.mem_append.mp mem with old | new
    · exact newer r old
    · exact UInt64.lt_of_le_of_lt log.base_le (within new).1
  · rw [Bank.extends_append, leads]
    exact ⟨extending, following⟩
  · rw [List.foldl_append, leads]
  · intro r mem
    rw [List.flatten_append, List.mem_append, List.flatten_singleton] at mem
    rcases mem with old | new
    · exact UInt64.le_trans (log.within r old) grows
    · exact (within new).2

end Log

/-- The log file consists of whole batches, up to the start of a frame at its end. An empty file
is a log without its header. -/
def LogFile (file : Option Bytes) (batches : List (List WalRecord)) : Prop :=
  (file.getD [] = [] ∧ batches = []) ∨
    ∃ tail, Frame.Torn 4 maxWALFrameBytes tail ∧ file = some (walBytes batches ++ tail)

theorem walBytes_concat (batches : List (List WalRecord)) (rs : List WalRecord) :
    walBytes (batches ++ [rs]) = walBytes batches ++ Frame.frame (walPayload rs) := by
  simp [walBytes]

/-- A frame of which only a part was written is not there. -/
theorem logFile_part (batches : List (List WalRecord)) {rs : List WalRecord}
    (loggable : LoggableBatch rs) {n : Nat} (part : n < (Frame.frame (walPayload rs)).length) :
    LogFile (some (walBytes batches ++ (Frame.frame (walPayload rs)).take n)) batches :=
  .inr ⟨_, Frame.torn_take_frame loggable.frameFits (by decide) part, rfl⟩

theorem logFile_frame (batches : List (List WalRecord)) {rs : List WalRecord}
    (loggable : LoggableBatch rs) (n : Nat) :
    LogFile (some (walBytes batches ++ (Frame.frame (walPayload rs)).take n)) batches ∨
      LogFile (some (walBytes batches ++ (Frame.frame (walPayload rs)).take n))
        (batches ++ [rs]) := by
  by_cases whole : (Frame.frame (walPayload rs)).length ≤ n
  · refine .inr (.inr ⟨[], .inl rfl, ?_⟩)
    rw [List.take_of_length_le whole, walBytes_concat, List.append_nil]
  · exact .inl (logFile_part batches loggable (not_le.mp whole))

/-- The error of an engine with more accounts than the configuration allows. -/
def Core.overCapacity (e : Core) : ReadError :=
  .runtime ⟨.recoveryIncompatible,
    s!"database contains {e.table.size} accounts, configured maximum is {e.bounds.maxAccounts}"⟩

theorem openWAL_logFile {cfg : CoreConfig} (durable : cfg.Durable) {file : Option Bytes}
    {batches : List (List WalRecord)} (loggable : ∀ batch ∈ batches, LoggableBatch batch)
    (logFile : LogFile file batches) (unused : Bytes) (after : UInt64) :
    openWAL cfg file unused after = .ok (some ⟨walBytes batches, (walBytes batches).length⟩,
      batches.flatten.filter (after < ·.sequence)) := by
  have data : ∃ tail, Frame.Torn 4 maxWALFrameBytes tail ∧
      (if file.getD [] = [] then walHeader else file.getD []) = walBytes batches ++ tail := by
    rcases logFile with ⟨empty, rfl⟩ | ⟨tail, torn, rfl⟩
    · exact ⟨[], .inl rfl, by simp [empty, walBytes]⟩
    · have nonempty : walBytes batches ++ tail ≠ [] := by
        intro h
        have := congrArg List.length h
        rw [List.length_append, walBytes, List.length_append, length_walHeader,
          walHeaderSize] at this
        simp at this
      exact ⟨tail, torn, by simp [nonempty]⟩
  obtain ⟨tail, torn, data⟩ := data
  simp only [openWAL, durable.batchSync, durable.storageDir, reduceCtorEq, if_false,
    Bool.true_eq_false, data, scanWAL_walBytes loggable torn unused after, List.take_left']

/-- An engine opens with the bank that the records of the log behind its snapshot lead to, if the
accounts fit. -/
theorem openCore_records {cfg : CoreConfig} (durable : cfg.Durable) {d : Directory} {base : Bank}
    {batches : List (List WalRecord)} {fresh : List WalRecord}
    (reads : Reads cfg.bounds d.snapshot base)
    (loggable : ∀ batch ∈ batches, LoggableBatch batch) (logFile : LogFile d.wal batches)
    (records : batches.flatten.filter (base.sequence < ·.sequence) = fresh)
    (following : base.Extends cfg.bounds.dedupeWindow fresh) (unused : Bytes) :
    ∃ e : Core, e.bank = fresh.foldl (Bank.apply cfg.bounds.dedupeWindow) base ∧ e.epoch = 0 ∧
      Core.SameHandle { bounds := cfg.bounds
                        wal := some ⟨walBytes batches, (walBytes batches).length⟩ } e ∧
      openCore cfg d unused =
        if e.table.size > e.bounds.maxAccounts then .error e.overCapacity else .ok e := by
  obtain ⟨t, loads, bankT, zero, same⟩ := reads
  have sequence : base.sequence = t.sequence := (congrArg Bank.sequence bankT).symm
  rw [sequence] at records
  let u : Core := { t with wal := some ⟨walBytes batches, (walBytes batches).length⟩ }
  have bankU : u.bank = base := bankT
  have boundsU : u.bounds = cfg.bounds := same.bounds
  obtain ⟨e, replays, bankE, zeroE, sameE⟩ := Core.replay_extends (e := u) zero
    (by rw [bankU, boundsU]; exact following)
  refine ⟨e, ?_, zeroE, .trans (t := u) ⟨same.bounds, rfl, same.closed, same.poisoned⟩ sameE, ?_⟩
  · rw [bankE, bankU, boundsU]
  · have hints := durable.accountHint
    have hints' := durable.recordHint
    unfold openCore
    rw [failIf_neg (by omega), failIf_neg (by simp [durable.batchSync])]
    simp only [bind, Except.bind, durable.storageDir, if_true, loads, Except.mapError,
      openWAL_logFile durable loggable logFile unused, records]
    rw [show List.foldlM Core.replay _ fresh = .ok e from replays]
    by_cases full : e.table.size > e.bounds.maxAccounts
    · simp only [failIf, Core.overCapacity, if_pos full]
    · simp only [failIf, if_neg full]

theorem Log.records {horizon : Nat} {base bank : Bank} {batches : List (List WalRecord)}
    (log : Log horizon base batches bank) :
    base.Extends horizon (batches.flatten.filter (base.sequence < ·.sequence)) ∧
      (batches.flatten.filter (base.sequence < ·.sequence)).foldl (Bank.apply horizon) base =
        bank := by
  obtain ⟨-, ⟨stale, fresh, split, passed, newer, following, leads⟩, -, -⟩ := log
  have none : stale.filter (base.sequence < ·.sequence) = [] := by
    rw [List.filter_eq_nil_iff]
    intro r mem
    simpa using passed r mem
  have all : fresh.filter (base.sequence < ·.sequence) = fresh := by
    rw [List.filter_eq_self]
    intro r mem
    simpa using newer r mem
  rw [split, List.filter_append, none, all, List.nil_append]
  exact ⟨following, leads⟩

/-- An engine opens with the bank that its directory holds, if its accounts fit. -/
theorem openCore_log {cfg : CoreConfig} (durable : cfg.Durable) {d : Directory} {base bank : Bank}
    {batches : List (List WalRecord)} (reads : Reads cfg.bounds d.snapshot base)
    (log : Log cfg.bounds.dedupeWindow base batches bank) (logFile : LogFile d.wal batches)
    (unused : Bytes) :
    ∃ e : Core, e.bank = bank ∧ e.epoch = 0 ∧
      Core.SameHandle { bounds := cfg.bounds
                        wal := some ⟨walBytes batches, (walBytes batches).length⟩ } e ∧
      openCore cfg d unused =
        if e.table.size > e.bounds.maxAccounts then .error e.overCapacity else .ok e := by
  obtain ⟨following, leads⟩ := log.records
  obtain ⟨e, bankE, opened⟩ :=
    openCore_records durable reads log.loggable logFile rfl following unused
  exact ⟨e, bankE.trans leads, opened⟩

end OctetDB.Accounts
