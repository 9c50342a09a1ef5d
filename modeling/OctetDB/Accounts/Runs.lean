import OctetDB.Accounts.Reopen

/-!
# Runs of an engine

A run opens an engine on an empty directory, submits batches, takes snapshots, closes the
engine and opens it again, with failures of the operating system on the way. As long as the
sequence does not wrap and no snapshot is taken of a poisoned engine or interrupted behind the
truncation of the log, the directory holds the bank of the engine, or, after a batch that
failed, the bank before or behind this batch.
-/

namespace OctetDB.Accounts

/-- The engine and its files are in step: the log is whole, and with the snapshot it leads to
the bank of the engine. -/
structure Kept (cfg : CoreConfig) (s : Session) (base : Bank) (batches : List (List WalRecord)) :
    Prop where
  bounds : s.core.bounds = cfg.bounds
  sane : s.core.poisoned = none
  marks : s.core.MarksBelow
  sound : s.core.bank.Sound cfg.bounds.dedupeWindow
  reads : Reads cfg.bounds s.files.snapshot base
  log : Log cfg.bounds.dedupeWindow base batches s.core.bank
  wal : s.core.wal = some ⟨walBytes batches, (walBytes batches).length⟩

namespace Kept

variable {cfg : CoreConfig} {s : Session} {base : Bank} {batches : List (List WalRecord)}

/-- An engine that was opened on a directory is in step with it. -/
theorem opened (durable : cfg.Durable) {d files : Directory} {bank : Bank} {unused : Bytes}
    {e : Core} (reads : Reads cfg.bounds d.snapshot base)
    (log : Log cfg.bounds.dedupeWindow base batches bank) (logFile : LogFile d.wal batches)
    (sound : bank.Sound cfg.bounds.dedupeWindow) (same : files.snapshot = d.snapshot)
    (opens : openCore cfg d unused = .ok e) : e.bank = bank ∧ Kept cfg ⟨e, files⟩ base batches := by
  obtain ⟨t, bank, -, handle, outcome⟩ := openCore_log durable reads log logFile unused
  have marks := Core.MarksBelow.opened opens
  rw [opens] at outcome
  split at outcome
  · cases outcome
  · cases outcome
    exact ⟨bank, handle.bounds, handle.poisoned, marks, bank.symm ▸ sound, same.symm ▸ reads,
      bank.symm ▸ log, handle.wal⟩

theorem write_end (data bs : Bytes) :
    (⟨data, data.length⟩ : WalFile).write bs = ⟨data ++ bs, (data ++ bs).length⟩ := by
  simp [WalFile.write]

theorem records (kept : Kept cfg s base batches) {commands : List Command}
    (valid : ∀ c ∈ commands, c.Valid)
    (room : s.core.sequence.toNat + commands.length < 2 ^ 64)
    (fits : (walPayload (s.core.decideBatch commands).records).length ≤ maxWALFrameBytes) :
    LoggableBatch (s.core.decideBatch commands).records ∧
      Log cfg.bounds.dedupeWindow base (batches ++ [(s.core.decideBatch commands).records])
        ((s.core.decideBatch commands).records.foldl (Bank.apply cfg.bounds.dedupeWindow)
          s.core.bank) ∧
      ((s.core.decideBatch commands).records.foldl (Bank.apply cfg.bounds.dedupeWindow)
        s.core.bank).Sound cfg.bounds.dedupeWindow := by
  have decided := Core.records_decideBatch kept.marks valid
  have following := Core.extends_decideBatch kept.marks valid
  rw [kept.bounds] at following
  have length := Core.length_records_le kept.marks valid
  have named : ∀ r ∈ (s.core.decideBatch commands).records, r.commandID ≠ [] := by
    intro r mem
    have ids : (s.core.decideBatch commands).records.map (·.commandID) =
        (s.core.executed commands).map (·.id) := by
      rw [decided]
      exact Decisions.map_run _ _ _ _ fun _ _ _ => rfl
    have listed := List.mem_map_of_mem (f := (·.commandID)) mem
    rw [ids] at listed
    obtain ⟨c, executed, same⟩ := List.mem_map.mp listed
    rw [← same]
    exact (valid c (s.core.executed_subset commands c executed)).id_ne
  have loggable := loggableBatch_of_fits named fits
  have room' :
      s.core.bank.sequence.toNat + (s.core.decideBatch commands).records.length < 2 ^ 64 := by
    change s.core.sequence.toNat + _ < _
    omega
  exact ⟨loggable, kept.log.append loggable following room',
    kept.sound.foldl cfg.bounds.window_pos following loggable.loggable room'⟩

/-- An engine with another table and epoch but the same bank is in step as well. -/
theorem of_bank (kept : Kept cfg s base batches) {e : Core} (bank : e.bank = s.core.bank)
    (marks : e.MarksBelow) (handle : s.core.SameHandle e) :
    Kept cfg { s with core := e } base batches :=
  ⟨handle.bounds.trans kept.bounds, handle.poisoned.trans kept.sane, marks, bank.symm ▸ kept.sound,
    kept.reads, bank.symm ▸ kept.log, handle.wal.trans kept.wal⟩

theorem committed (kept : Kept cfg s base batches) {commands : List Command}
    (valid : ∀ c ∈ commands, c.Valid)
    (room : s.core.sequence.toNat + commands.length < 2 ^ 64)
    (fits : (walPayload (s.core.decideBatch commands).records).length ≤ maxWALFrameBytes)
    {wal : Option WalFile}
    (append : wal = some ((⟨walBytes batches, (walBytes batches).length⟩ : WalFile).write
      (Frame.frame (walPayload (s.core.decideBatch commands).records)))) :
    Kept cfg ⟨(s.core.decideBatch commands).records.foldl Core.applyDurable
        { (s.core.decideBatch commands).core with wal := wal }, s.files⟩ base
      (batches ++ [(s.core.decideBatch commands).records]) := by
  obtain ⟨-, log, sound⟩ := kept.records valid room fits
  have handle := Core.sameHandle_committed kept.marks valid wal
  have bank := Core.bank_committed kept.marks valid wal
  rw [kept.bounds] at bank
  refine ⟨handle.bounds.trans kept.bounds, handle.poisoned.trans kept.sane, ?_, bank.symm ▸ sound,
    kept.reads, bank.symm ▸ log, handle.wal.trans ?_⟩
  · exact Core.MarksBelow.foldl (e := { (s.core.decideBatch commands).core with wal := wal })
      (Core.staging_decideBatch kept.marks valid).marks _
  · rw [append, write_end, walBytes_concat]

/-- What an append leaves in the file of the log. -/
theorem append (kept : Kept cfg s base batches) {rs : List WalRecord} {fault : Option AppendFault}
    {wal : Option WalFile} {failure : Option String}
    (append : appendBatch s.core.wal rs fault = (wal, failure)) :
    (failure ≠ none ∧ wal = s.core.wal ∧ maxWALFrameBytes < (walPayload rs).length) ∨
      ((walPayload rs).length ≤ maxWALFrameBytes ∧ ∃ n,
        wal = some ⟨walBytes batches ++ (Frame.frame (walPayload rs)).take n,
          (walBytes batches ++ (Frame.frame (walPayload rs)).take n).length⟩ ∧
        (failure = none ↔ fault = none) ∧
        (fault = none → n = (Frame.frame (walPayload rs)).length)) := by
  rw [kept.wal] at append ⊢
  simp only [appendBatch] at append
  split at append
  · rename_i large
    cases append
    exact .inl ⟨by simp, rfl, large⟩
  · rename_i small
    refine .inr ⟨not_lt.mp small, ?_⟩
    cases fault with
    | none =>
      cases append
      refine ⟨_, ?_, by simp, fun _ => rfl⟩
      rw [write_end, List.take_length]
    | some fault =>
      cases fault with
      | write n message =>
        cases append
        exact ⟨n, by rw [write_end], by simp, by simp⟩
      | sync message =>
        cases append
        refine ⟨(Frame.frame (walPayload rs)).length, ?_, by simp, by simp⟩
        rw [write_end, List.take_length]

/-- What a batch leaves: an engine in step, with the log as it was or with one batch more, or a
poisoned engine, with the log as it was or with a batch more that the engine does not show. -/
theorem submit (kept : Kept cfg s base batches) {commands : List Command}
    (room : s.core.sequence.toNat + commands.length < 2 ^ 64) (fault : Option AppendFault) :
    (Kept cfg ⟨(s.core.submitBatch commands fault).1, s.files⟩ base batches ∧
      (s.core.submitBatch commands fault).1.bank = s.core.bank) ∨
    (fault = none ∧ (∃ results, (s.core.submitBatch commands fault).2 = .ok results) ∧
      ∃ rs, Kept cfg ⟨(s.core.submitBatch commands fault).1, s.files⟩ base (batches ++ [rs])) ∨
    ((∃ err, (s.core.submitBatch commands fault).2 = .error err) ∧
      (s.core.submitBatch commands fault).1.poisoned ≠ none ∧
      (fault = none → (s.core.submitBatch commands fault).1.wal = s.core.wal) ∧
      ∃ file, (s.core.submitBatch commands fault).1.wal = some file ∧
        (LogFile (some file.data) batches ∨ ∃ rs, LogFile (some file.data) (batches ++ [rs]) ∧
          Kept cfg ⟨(s.core.submitBatch commands none).1, s.files⟩ base (batches ++ [rs]))) := by
  have outcome := Core.submitBatch_spec kept.marks commands fault
  have clean := Core.submitBatch_spec kept.marks commands none
  generalize s.core.submitBatch commands fault = p at outcome ⊢
  obtain ⟨t, out⟩ := p
  cases outcome with
  | refused => exact .inl ⟨kept, rfl⟩
  | empty => exact .inl ⟨kept, rfl⟩
  | repeated takes none =>
    have bank := Core.bank_repeated kept.marks takes.valid none
    have handle : s.core.SameHandle (s.core.decideBatch commands).core := by
      rw [Core.decideBatch_fields kept.marks takes.valid]
      exact ⟨rfl, rfl, rfl, rfl⟩
    have marks := (Core.staging_decideBatch kept.marks takes.valid).marks
    exact .inl ⟨kept.of_bank bank marks handle, bank⟩
  | committed takes new wal appended =>
    rcases kept.append appended with ⟨failed, -⟩ | ⟨fits, n, written, healthy, whole⟩
    · exact absurd rfl failed
    · refine .inr (.inl ⟨healthy.mp rfl, ⟨_, rfl⟩, _, kept.committed takes.valid room fits ?_⟩)
      rw [written, whole (healthy.mp rfl), List.take_length, write_end]
  | failed takes new wal message appended =>
    refine .inr (.inr ⟨⟨_, rfl⟩, by simp, ?_⟩)
    rcases kept.append appended with ⟨-, same, -⟩ | ⟨fits, n, written, healthy, -⟩
    · refine ⟨fun _ => same, _, same.trans kept.wal, .inl (.inr ⟨[], .inl rfl, by simp⟩)⟩
    · refine ⟨fun none => absurd (healthy.mpr none) (by simp), _, written, ?_⟩
      obtain ⟨loggable, -, -⟩ := kept.records takes.valid room fits
      refine (logFile_frame batches loggable n).imp_right fun logFile => ⟨_, logFile, ?_⟩
      -- Without the failure the batch would have been committed.
      generalize s.core.submitBatch commands none = p at clean ⊢
      obtain ⟨u, out⟩ := p
      cases clean with
      | refused not => exact absurd takes not
      | empty none => exact absurd none takes.nonempty
      | repeated _ none => exact absurd none new
      | failed _ _ wal' message' appended' =>
        rcases kept.append appended' with ⟨-, -, large⟩ | ⟨-, _, -, healthy', -⟩
        · omega
        · exact absurd (healthy'.mpr rfl) (by simp)
      | committed _ _ wal' appended' =>
        rcases kept.append appended' with ⟨failed, -⟩ | ⟨-, m, written', -, whole⟩
        · exact absurd rfl failed
        · refine kept.committed takes.valid room fits ?_
          rw [written', whole rfl, List.take_length, write_end]

end Kept

/-! ## Snapshots -/

/-- The operation comes before the log is changed. -/
def SnapshotOp.Early (op : SnapshotOp) : Prop := op = .truncate ∨ op.onWal = false

instance (op : SnapshotOp) : Decidable op.Early := inferInstanceAs (Decidable (_ ∨ _))

/-- A snapshot that fails early leaves the engine, and the snapshot from before or the new one. -/
theorem Session.snapshotUntil_early (s : Session) {f : SnapshotFault} (early : f.op.Early) :
    (s.snapshotUntil f).core = s.core ∧
      ((s.snapshotUntil f).files.snapshot = s.files.snapshot ∨
        (s.snapshotUntil f).files.snapshot = some s.core.encodeSnapshot) := by
  obtain ⟨op, n, message⟩ := f
  cases op
  case seekStart | writeHeader | syncWal | seekEnd =>
    simp [SnapshotOp.Early, SnapshotOp.onWal] at early
  case create | write | sync | close | rename => exact ⟨rfl, .inl rfl⟩
  case openDirectory | syncDirectory | closeDirectory | truncate => exact ⟨rfl, .inr rfl⟩

theorem Session.snapshot_whole {s : Session} {file : WalFile} (wal : s.core.wal = some file) :
    (snapshotOps.foldl (SnapshotOp.run s.core.encodeSnapshot) s).core =
        { s.core with wal := some ⟨walHeader, walHeader.length⟩ } ∧
      (snapshotOps.foldl (SnapshotOp.run s.core.encodeSnapshot) s).files.snapshot =
        some s.core.encodeSnapshot := by
  refine ⟨?_, rfl⟩
  simp [snapshotOps, SnapshotOp.run, SnapshotOp.overwrite, Session.withWal, wal]

namespace Kept

variable {cfg : CoreConfig} {s : Session} {base : Bank} {batches : List (List WalRecord)}

theorem reads_snapshot (kept : Kept cfg s base batches) (encodable : s.core.Encodable) :
    Reads cfg.bounds (some s.core.encodeSnapshot) s.core.bank := by
  have sound := kept.sound
  rw [← kept.bounds] at sound ⊢
  exact Core.reads_encodeSnapshot sound encodable

/-- A whole snapshot leaves an engine in step, with an empty log. -/
theorem whole_snapshot (kept : Kept cfg s base batches) (encodable : s.core.Encodable) :
    Kept cfg (snapshotOps.foldl (SnapshotOp.run s.core.encodeSnapshot) s) s.core.bank [] := by
  have reads := kept.reads_snapshot encodable
  obtain ⟨core, snapshot⟩ := Session.snapshot_whole kept.wal
  have bank : (snapshotOps.foldl (SnapshotOp.run s.core.encodeSnapshot) s).core.bank =
      s.core.bank := by rw [core]; rfl
  constructor
  · rw [core]; exact kept.bounds
  · rw [core]; exact kept.sane
  · rw [core]; exact kept.marks
  · rw [bank]; exact kept.sound
  · rw [snapshot]; exact reads
  · rw [bank]; exact .empty _ _
  · rw [core]; simp [walBytes]

theorem snapshot_ok (kept : Kept cfg s base batches) {fault : Option SnapshotFault} {size : Nat}
    (ok : (s.snapshot fault).2 = .ok size) :
    (s.snapshot fault).1 = snapshotOps.foldl (SnapshotOp.run s.core.encodeSnapshot) s := by
  have durable : s.core.wal.isNone = false := by rw [kept.wal]; rfl
  unfold Session.snapshot at ok ⊢
  simp only [durable, Bool.false_eq_true, if_false] at ok ⊢
  cases met : s.core.snapshotFault fault with
  | none => rfl
  | some f => simp [met] at ok

/-- A snapshot that is whole or fails early leaves an engine in step. -/
theorem snapshot (kept : Kept cfg s base batches) (encodable : s.core.Encodable)
    {fault : Option SnapshotFault} (early : ∀ f, fault = some f → f.op.Early) :
    (s.snapshot fault).1.core.bank = s.core.bank ∧
      ∃ base batches, Kept cfg (s.snapshot fault).1 base batches := by
  have reads := kept.reads_snapshot encodable
  have durable : s.core.wal.isNone = false := by rw [kept.wal]; rfl
  unfold Session.snapshot
  simp only [durable, Bool.false_eq_true, if_false]
  cases met : s.core.snapshotFault fault with
  | none =>
    obtain ⟨core, -⟩ := Session.snapshot_whole kept.wal
    exact ⟨by rw [core]; rfl, _, _, kept.whole_snapshot encodable⟩
  | some f =>
    have first : f.op.Early := by
      unfold Core.snapshotFault at met
      split at met
      · cases met; exact .inl rfl
      · exact early f met
    obtain ⟨core, snapshot⟩ := s.snapshotUntil_early first
    refine ⟨by rw [core], ?_⟩
    rcases snapshot with old | new
    · refine ⟨base, batches, ?_⟩
      obtain ⟨bounds, sane, marks, sound, reads, log, wal⟩ := kept
      constructor <;> simp only [core, old] <;> assumption
    · refine ⟨s.core.bank, batches, ?_⟩
      obtain ⟨bounds, sane, marks, sound, -, log, wal⟩ := kept
      have log := log.installed
      constructor <;> simp only [core, new] <;> assumption

end Kept

/-! ## Runs -/

/-- What can be done with an open engine, and how the operating system fails in it. -/
inductive Operation where
  | submit (commands : List Command) (fault : Option AppendFault)
  | snapshot (fault : Option SnapshotFault)
  | close

def Session.run (s : Session) : Operation → Session
  | .submit commands fault => { s with core := (s.core.submitBatch commands fault).1 }
  | .snapshot fault => (s.snapshot fault).1
  | .close => { s with core := s.core.close }

/-- The sequence does not wrap in a batch, and a snapshot is taken of an engine that is not
poisoned and whose counts fit, and does not fail behind the truncation of the log. -/
def Operation.Safe (s : Session) : Operation → Prop
  | .submit commands _ => s.core.sequence.toNat + commands.length < 2 ^ 64
  | .snapshot fault =>
    s.core.poisoned = none ∧ s.core.Encodable ∧ ∀ f, fault = some f → f.op.Early
  | .close => True

/-- The sessions that allowed operations lead to, from an empty directory on. The engine may be
opened again at any time. -/
inductive Runs (cfg : CoreConfig) (allowed : Session → Operation → Prop) : Session → Prop
  | created {unused : Bytes} {e : Core} (opens : openCore cfg {} unused = .ok e) :
    Runs cfg allowed ⟨e, {}⟩
  | step {s : Session} (before : Runs cfg allowed s) {op : Operation} (allows : allowed s op) :
    Runs cfg allowed (s.run op)
  | reopened {s : Session} (before : Runs cfg allowed s) {unused : Bytes} {e : Core}
    (opens : openCore cfg s.directory unused = .ok e) : Runs cfg allowed ⟨e, s.files⟩

/-- The directory of a session holds the bank of an engine that is in step with it. It is the
engine of the session unless a batch has failed there. -/
structure Session.Durable (cfg : CoreConfig) (s : Session) (live : Core) : Prop where
  same : s.core.poisoned = none → s.core = live
  kept : ∃ base batches file, Kept cfg ⟨live, s.files⟩ base batches ∧
    s.core.wal = some file ∧ LogFile (some file.data) batches

namespace Session.Durable

variable {cfg : CoreConfig} {s : Session} {live : Core}

theorem of_kept {base : Bank} {batches : List (List WalRecord)} (kept : Kept cfg s base batches) :
    s.Durable cfg s.core :=
  ⟨fun _ => rfl, base, batches, _, kept, kept.wal, .inr ⟨[], .inl rfl, by simp⟩⟩

theorem bounds (h : s.Durable cfg live) : live.bounds = cfg.bounds := by
  obtain ⟨_, _, _, kept, -⟩ := h.kept
  exact kept.bounds

theorem marks (h : s.Durable cfg live) : live.MarksBelow := by
  obtain ⟨_, _, _, kept, -⟩ := h.kept
  exact kept.marks

/-- Opening the directory gives the bank, unless there are too many accounts. -/
theorem opens (h : s.Durable cfg live) (durable : cfg.Durable) (unused : Bytes) :
    ∃ e : Core, e.bank = live.bank ∧ e.bounds = cfg.bounds ∧ openCore cfg s.directory unused =
      if e.table.size > e.bounds.maxAccounts then .error e.overCapacity else .ok e := by
  obtain ⟨base, batches, file, kept, wal, logFile⟩ := h.kept
  have data : s.directory.wal = some file.data := by simp [Session.directory, wal]
  have snapshot : s.directory.snapshot = s.files.snapshot := by simp [Session.directory, wal]
  obtain ⟨e, bank, -, handle, outcome⟩ := openCore_log durable (snapshot ▸ kept.reads) kept.log
    (data ▸ logFile) unused
  exact ⟨e, bank, handle.bounds, outcome⟩

theorem reopened (h : s.Durable cfg live) (durable : cfg.Durable) {unused : Bytes} {e : Core}
    (opens : openCore cfg s.directory unused = .ok e) :
    e.bank = live.bank ∧ Session.Durable cfg ⟨e, s.files⟩ e := by
  obtain ⟨base, batches, file, kept, wal, logFile⟩ := h.kept
  have data : s.directory.wal = some file.data := by simp [Session.directory, wal]
  have snapshot : s.directory.snapshot = s.files.snapshot := by simp [Session.directory, wal]
  obtain ⟨bank, kept⟩ := Kept.opened durable (snapshot ▸ kept.reads) kept.log
    (data ▸ logFile) kept.sound snapshot.symm opens
  exact ⟨bank, .of_kept kept⟩

theorem submitBatch_poisoned {e : Core} (poisoned : e.poisoned ≠ none) (commands : List Command)
    (fault : Option AppendFault) : (e.submitBatch commands fault).1 = e := by
  unfold Core.submitBatch
  cases found : e.poisoned with
  | none => exact absurd found poisoned
  | some message =>
    split
    · rfl
    · simp

/-- After a safe operation the directory holds the bank of the same engine or of one with the
same bank, or of the engine with the batch that was submitted. -/
theorem step (h : s.Durable cfg live) {op : Operation} (safe : op.Safe s) :
    ∃ next, (s.run op).Durable cfg next ∧ (s.core.poisoned ≠ none → next = live) ∧
      (next.bank = live.bank ∧ next.bounds = live.bounds ∨ ∃ commands fault,
        op = .submit commands fault ∧ s.core = live ∧
          next = (live.submitBatch commands none).1) := by
  by_cases sane : s.core.poisoned = none
  · obtain rfl := h.same sane
    obtain ⟨base, batches, -, kept, -⟩ := h.kept
    cases op with
    | submit commands fault =>
      rcases kept.submit safe fault with ⟨kept', bank⟩ | ⟨rfl, -, rs, kept'⟩ |
        ⟨-, poisoned, -, file, wal, logFile⟩
      · exact ⟨_, .of_kept kept', fun h => absurd sane h,
          .inl ⟨bank, kept'.bounds.trans kept.bounds.symm⟩⟩
      · exact ⟨_, .of_kept kept', fun h => absurd sane h, .inr ⟨commands, none, rfl, rfl, rfl⟩⟩
      · rcases logFile with old | ⟨rs, new, kept'⟩
        · exact ⟨s.core, ⟨fun h => absurd h poisoned, base, batches, file, kept, wal, old⟩,
            fun h => absurd sane h, .inl ⟨rfl, rfl⟩⟩
        · exact ⟨_, ⟨fun h => absurd h poisoned, base, _, file, kept', wal, new⟩,
            fun h => absurd sane h, .inr ⟨commands, fault, rfl, rfl, rfl⟩⟩
    | snapshot fault =>
      obtain ⟨-, encodable, early⟩ := safe
      obtain ⟨bank, _, _, kept'⟩ := kept.snapshot encodable early
      exact ⟨_, .of_kept kept', fun h => absurd sane h,
        .inl ⟨bank, kept'.bounds.trans kept.bounds.symm⟩⟩
    | close =>
      have kept' : Kept cfg (s.run .close) base batches := by
        obtain ⟨bounds, sane, marks, sound, reads, log, wal⟩ := kept
        exact ⟨bounds, sane, marks, sound, reads, log, wal⟩
      exact ⟨s.core.close, .of_kept kept', fun h => absurd sane h, .inl ⟨rfl, rfl⟩⟩
  · refine ⟨live, ?_, fun _ => rfl, .inl ⟨rfl, rfl⟩⟩
    obtain ⟨-, kept⟩ := h
    cases op with
    | submit commands fault =>
      have same : (s.run (.submit commands fault)) = s := by
        simp only [Session.run, submitBatch_poisoned sane]
      rw [same]
      exact ⟨fun h => absurd h sane, kept⟩
    | snapshot fault => exact absurd safe.1 sane
    | close => exact ⟨fun h => absurd h sane, kept⟩

end Session.Durable

/-- The directory of a session holds the bank of an engine all along a safe run. -/
theorem Runs.durable {cfg : CoreConfig} (durable : cfg.Durable)
    {allowed : Session → Operation → Prop} (safe : ∀ s op, allowed s op → op.Safe s) {s : Session}
    (runs : Runs cfg allowed s) : ∃ live, s.Durable cfg live := by
  induction runs with
  | created opens =>
    exact ⟨_, .of_kept (Kept.opened durable (reads_none _) (.empty _ _) (.inl ⟨rfl, rfl⟩)
      (.empty _) rfl opens).2⟩
  | step _ allows ih =>
    obtain ⟨live, h⟩ := ih
    obtain ⟨next, h, -⟩ := h.step (safe _ _ allows)
    exact ⟨next, h⟩
  | reopened _ opens ih =>
    obtain ⟨live, h⟩ := ih
    exact ⟨_, (h.reopened durable opens).2⟩

def twoAccounts : Session :=
  (Session.mk (.created {}) {}).run (.submit
    [{ id := [97], kind := .create, account := 1, amount := 5 },
      { id := [98], kind := .create, account := 2, amount := 5 }] none)

theorem runs_twoAccounts : Runs {} Operation.Safe twoAccounts :=
  .step (.created (openCore_empty ⟨rfl, rfl, by decide, by decide⟩ []))
    (by unfold Operation.Safe; decide +kernel)

/-! ## The snapshot codec -/

/-- A snapshot of an engine whose sequences count from one is loaded with the same window, and
everything it covers is restored. -/
theorem Core.snapshot_restored (e : Core) (sound : e.bank.Sound e.bounds.dedupeWindow)
    (encodable : e.Encodable) : ∃ t : Core,
      ({ bounds := e.bounds } : Core).loadSnapshot (some e.encodeSnapshot) = .ok t ∧
      t.sequence = e.sequence ∧ t.book = e.book ∧ t.ledger = e.ledger ∧
      t.retained.active = e.retained.active ∧ t.retained.results = e.retained.results := by
  obtain ⟨t, loads, bank, -, -⟩ := Core.reads_encodeSnapshot sound encodable
  obtain ⟨book, ledger, window, sequence⟩ := Bank.mk.inj bank
  obtain ⟨results, active⟩ := Window.mk.inj window
  exact ⟨t, loads, sequence, book, ledger, active, results⟩

/-- A ledger that starts with the sequence zero is refused. -/
theorem Core.snapshot_of_zero_refused :
    let e : Core := { bounds := ({} : CoreConfig).bounds, ledger := [{ commandID := [97] }] }
    e.Encodable ∧ (e.ledger.map (·.sequence)).Pairwise (· < ·) ∧
      (∀ x ∈ e.ledger, Named x.commandID ∧ x.sequence ≤ e.sequence) ∧
      ({ bounds := e.bounds } : Core).loadSnapshot (some e.encodeSnapshot) =
        .error (.plain "invalid core snapshot ledger order or identity") := by
  intro e
  have encodable : e.Encodable := by decide +kernel
  refine ⟨encodable, by simp [e], by simp [e, Named], ?_⟩
  rw [Core.loadSnapshot_encodeSnapshot _ _ encodable.payload, Core.length_encodeSnapshot]
  exact failure_eq_some.mp (by decide +kernel)

/-- The snapshot of an engine with two accounts. -/
theorem Core.snapshot_restored_two : ∃ t : Core,
    ({ bounds := twoAccounts.core.bounds } : Core).loadSnapshot
      (some twoAccounts.core.encodeSnapshot) = .ok t ∧ t.book = twoAccounts.core.book ∧
      twoAccounts.core.ledger.length = 2 := by
  have sane : twoAccounts.core.poisoned = none := by decide +kernel
  have encodable : twoAccounts.core.Encodable := by decide +kernel
  have entries : twoAccounts.core.ledger.length = 2 := by decide +kernel
  have runs := runs_twoAccounts
  generalize twoAccounts = s at *
  obtain ⟨live, durable⟩ := runs.durable ⟨rfl, rfl, by decide, by decide⟩ fun _ _ safe => safe
  obtain rfl := durable.same sane
  obtain ⟨_, _, _, kept, -⟩ := durable.kept
  obtain ⟨t, loads, -, book, -⟩ :=
    Core.snapshot_restored s.core (kept.bounds ▸ kept.sound) encodable
  exact ⟨t, loads, book, entries⟩

end OctetDB.Accounts
