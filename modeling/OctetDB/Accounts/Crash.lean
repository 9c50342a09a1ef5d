import OctetDB.Accounts.Runs

/-!
# Crashes

A crash leaves the log cut off somewhere, or a snapshot between two of its operations. The
engine then opens with the state after the last batch whose frame is whole, or with the state
that the snapshot was taken of, unless a part of the header is all that is left of the log.
-/

namespace OctetDB.Accounts

variable {cfg : CoreConfig} {s : Session}

/-- A log that is opened is empty or has a header. -/
theorem openCore_header (durable : cfg.Durable) {d : Directory} {unused : Bytes} {e : Core}
    (opens : openCore cfg d unused = .ok e) :
    d.wal.getD [] = [] ∨ walHeaderSize ≤ (d.wal.getD []).length := by
  obtain ⟨-, -, opens⟩ := bind_ok.mp opens
  obtain ⟨-, -, opens⟩ := bind_ok.mp opens
  obtain ⟨t, -, opens⟩ := bind_ok.mp opens
  obtain ⟨⟨wal, records⟩, log, -⟩ := bind_ok.mp opens
  rw [mapError_ok] at log
  by_cases empty : d.wal.getD [] = []
  · exact .inl empty
  · right
    by_contra short
    simp only [openWAL, durable.batchSync, durable.storageDir, reduceCtorEq, if_false,
      Bool.true_eq_false, if_neg empty] at log
    have failed : ∃ err, scanWAL (d.wal.getD []) unused t.sequence = .error err := by
      simp only [scanWAL]
      split
      · exact ⟨_, rfl⟩
      · rw [if_pos (.inl (not_le.mp short))]
        exact ⟨_, rfl⟩
    obtain ⟨err, failed⟩ := failed
    rw [failed] at log
    cases log

/-! ## A crash in a snapshot -/

/-- The directory after a crash at an operation of a snapshot; of a write the first `n` bytes
are there. -/
def Session.crashed (s : Session) (op : SnapshotOp) (n : Nat) : Directory :=
  (op.fail s.core.encodeSnapshot n ((snapshotOps.takeWhile (· ≠ op)).foldl
    (SnapshotOp.run s.core.encodeSnapshot) s)).directory

/-- What a crash in a snapshot leaves of the snapshot and the log. -/
theorem Session.crashed_files {file : WalFile} (wal : s.core.wal = some file) (op : SnapshotOp)
    (n : Nat) :
    (op.Early ∧ (s.crashed op n).wal = some file.data ∧
        ((s.crashed op n).snapshot = s.files.snapshot ∨
          (s.crashed op n).snapshot = some s.core.encodeSnapshot)) ∨
      (s.crashed op n).snapshot = some s.core.encodeSnapshot ∧
        (op = .seekStart ∧ (s.crashed op n).wal = some [] ∨
          op = .writeHeader ∧ (s.crashed op n).wal = some (walHeader.take n) ∨
          (op = .syncWal ∨ op = .seekEnd) ∧ (s.crashed op n).wal = some walHeader) := by
  cases op <;> simp [crashed, snapshotOps, SnapshotOp.run, SnapshotOp.fail, Session.withWal,
    Session.directory, SnapshotOp.overwrite, SnapshotOp.Early, SnapshotOp.onWal, wal]

/-- The part of a header that a crash leaves is read as an empty log if it is empty or whole. -/
theorem logFile_header {n : Nat} (whole : n = 0 ∨ walHeaderSize ≤ n) :
    LogFile (some (walHeader.take n)) [] := by
  rcases whole with rfl | whole
  · exact .inl ⟨rfl, rfl⟩
  · refine .inr ⟨[], .inl rfl, ?_⟩
    rw [List.take_of_length_le (by rw [length_walHeader]; exact whole)]
    simp [walBytes]

/-- After a crash in a snapshot the engine opens with the state that the snapshot was taken of
exactly if its accounts fit and the crash did not leave a part of the header of the log. -/
theorem snapshot_crash_recovers_iff (cfg : CoreConfig) (durable : cfg.Durable) (s : Session)
    (runs : Runs cfg Operation.Safe s) (sane : s.core.poisoned = none)
    (encodable : s.core.Encodable) (op : SnapshotOp) (n : Nat) (unused : Bytes) :
    (∃ e, openCore cfg (s.crashed op n) unused = .ok e ∧ e.bank = s.core.bank) ↔
      s.core.table.size ≤ s.core.bounds.maxAccounts ∧
        ¬ (op = .writeHeader ∧ 0 < n ∧ n < walHeaderSize) := by
  obtain ⟨live, holds⟩ := runs.durable durable fun _ _ safe => safe
  obtain rfl := holds.same sane
  obtain ⟨base, batches, -, kept, -⟩ := holds.kept
  have reads := kept.reads_snapshot encodable
  by_cases torn : op = .writeHeader ∧ 0 < n ∧ n < walHeaderSize
  · refine ⟨fun ⟨e, opens, _⟩ => ?_, fun h => absurd torn h.2⟩
    obtain ⟨rfl, pos, short⟩ := torn
    have header := openCore_header durable opens
    have wal : (s.crashed .writeHeader n).wal = some (walHeader.take n) := by
      rcases Session.crashed_files kept.wal .writeHeader n with ⟨early, -⟩ | ⟨-, late⟩
      · exact absurd early (by decide)
      · simpa using late
    rw [wal, Option.getD_some] at header
    have length : (walHeader.take n).length = n := by
      rw [List.length_take, length_walHeader]
      omega
    rcases header with empty | whole
    · rw [empty] at length; simp at length; omega
    · omega
  · have files : ∃ base' batches', Reads cfg.bounds (s.crashed op n).snapshot base' ∧
        Log cfg.bounds.dedupeWindow base' batches' s.core.bank ∧
        LogFile (s.crashed op n).wal batches' := by
      rcases Session.crashed_files kept.wal op n with ⟨-, wal, old | new⟩ | ⟨snapshot, late⟩
      · exact ⟨base, batches, old ▸ kept.reads, kept.log, .inr ⟨[], .inl rfl, by simp [wal]⟩⟩
      · exact ⟨_, batches, new ▸ reads, kept.log.installed, .inr ⟨[], .inl rfl, by simp [wal]⟩⟩
      · refine ⟨_, [], snapshot ▸ reads, .empty _ _, ?_⟩
        rcases late with ⟨-, wal⟩ | ⟨rfl, wal⟩ | ⟨-, wal⟩
        · rw [wal]; exact .inl ⟨rfl, rfl⟩
        · have whole : ¬ (0 < n ∧ n < walHeaderSize) := fun part => torn ⟨rfl, part⟩
          rw [wal]
          exact logFile_header (by omega)
        · rw [wal]; exact .inr ⟨[], .inl rfl, by simp [walBytes]⟩
    obtain ⟨base', batches', reads, log, logFile⟩ := files
    obtain ⟨e, bank, -, handle, outcome⟩ := openCore_log durable reads log logFile unused
    have size := Core.size_of_bank bank
    have bounds : e.bounds = s.core.bounds := handle.bounds.trans kept.bounds.symm
    rw [outcome, bounds, size]
    constructor
    · rintro ⟨u, opens, -⟩
      refine ⟨?_, torn⟩
      by_contra full
      rw [if_pos (by omega)] at opens
      cases opens
    · rintro ⟨fits, -⟩
      exact ⟨e, if_neg (by omega), bank⟩

set_option maxRecDepth 20000 in
/-- A crash between the truncation of the log and its new header. -/
theorem snapshot_crash_recovers_truncated :
    ∃ e, openCore {} (twoAccounts.crashed .seekStart 0) [] = .ok e ∧
      e.bank = twoAccounts.core.bank :=
  (snapshot_crash_recovers_iff {} ⟨rfl, rfl, by decide, by decide⟩ twoAccounts runs_twoAccounts
    (by decide +kernel) (by decide +kernel) .seekStart 0 []).mpr ⟨by decide +kernel, by decide⟩

set_option maxRecDepth 20000 in
/-- A crash that leaves ten bytes of the new header. -/
theorem snapshot_crash_in_header :
    openCore {} (twoAccounts.crashed .writeHeader 10) [] =
      .error (.runtime ⟨.recoveryCorrupt, "invalid WAL header or format version"⟩) := by
  rw [← failure_eq_some]
  decide +kernel

/-! ## A crash that cuts the log -/

def Session.logLength (s : Session) : Nat := (s.core.wal.map (·.data.length)).getD 0

/-- The directory after a crash that left the first `k` bytes of the log. -/
def Session.cut (s : Session) (k : Nat) : Directory :=
  { s.directory with wal := s.directory.wal.map (List.take k) }

/-- The states of a run since the last snapshot with the length that the log had then, the latest
first. -/
abbrev Past := List (Nat × Bank)

/-- The states whose log is within the first `k` bytes; the first state needs no frame. -/
def Past.cut (k : Nat) : Past → Past
  | [] => []
  | [p] => [p]
  | p :: q :: past => if p.1 ≤ k then p :: q :: past else cut k (q :: past)

def Past.last (past : Past) : Bank := (past.head?.map (·.2)).getD {}

/-- Runs of batches and snapshots without a failure of the operating system, with the states since
the last snapshot. A crash may cut the log, and the engine is opened again then. -/
inductive History (cfg : CoreConfig) : Session → Past → Prop
  | created {unused : Bytes} {e : Core} (opens : openCore cfg {} unused = .ok e) :
    History cfg ⟨e, {}⟩ [(walHeaderSize, e.bank)]
  | answered {s : Session} {past : Past} (before : History cfg s past) {commands : List Command}
    (safe : Operation.Safe s (.submit commands none)) {results : List Result}
    (ok : (s.core.submitBatch commands none).2 = .ok results) :
    History cfg (s.run (.submit commands none))
      (((s.run (.submit commands none)).logLength, (s.core.submitBatch commands none).1.bank) ::
        past)
  | refused {s : Session} {past : Past} (before : History cfg s past) {commands : List Command}
    (safe : Operation.Safe s (.submit commands none)) {err : RuntimeError}
    (error : (s.core.submitBatch commands none).2 = .error err) :
    History cfg (s.run (.submit commands none)) past
  | snapshotted {s : Session} {past : Past} (before : History cfg s past)
    (safe : Operation.Safe s (.snapshot none)) {size : Nat} (ok : (s.snapshot none).2 = .ok size) :
    History cfg (s.run (.snapshot none)) [(walHeaderSize, s.core.bank)]
  | crashed {s : Session} {past : Past} (before : History cfg s past) {k : Nat}
    (header : k = 0 ∨ walHeaderSize ≤ k) {unused : Bytes} {e : Core}
    (opens : openCore cfg (s.cut k) unused = .ok e) : History cfg ⟨e, s.files⟩ (past.cut k)

theorem Past.cut_of_le {k : Nat} {p : Nat × Bank} {past : Past} (le : p.1 ≤ k) :
    Past.cut k (p :: past) = p :: past := by
  cases past with
  | nil => rfl
  | cons q past => rw [Past.cut, if_pos le]

/-- The states are those after the batches of a log. -/
inductive Lists (horizon : Nat) (base : Bank) : List (List WalRecord) → Past → Prop
  | start (sound : base.Sound horizon) : Lists horizon base [] [(walHeaderSize, base)]
  | again {batches : List (List WalRecord)} {past : Past} {bank : Bank}
    (before : Lists horizon base batches past) (same : past.last = bank) :
    Lists horizon base batches (((walBytes batches).length, bank) :: past)
  | more {batches : List (List WalRecord)} {past : Past} {rs : List WalRecord} {bank : Bank}
    (before : Lists horizon base batches past) (log : Log horizon base (batches ++ [rs]) bank)
    (sound : bank.Sound horizon) :
    Lists horizon base (batches ++ [rs]) (((walBytes (batches ++ [rs])).length, bank) :: past)

namespace Lists

variable {horizon : Nat} {base : Bank} {batches : List (List WalRecord)} {past : Past}

theorem head (lists : Lists horizon base batches past) :
    ∃ rest, past = ((walBytes batches).length, past.last) :: rest ∧
      Log horizon base batches past.last ∧ past.last.Sound horizon := by
  induction lists with
  | start sound =>
    have length : (walBytes []).length = walHeaderSize := by simp [walBytes, length_walHeader]
    exact ⟨[], by rw [length]; rfl, .empty _ _, sound⟩
  | again _ same ih =>
    obtain ⟨rest, -, log, sound⟩ := ih
    subst same
    exact ⟨_, rfl, log, sound⟩
  | more _ log sound => exact ⟨_, rfl, log, sound⟩

/-- A log cut behind its header is the log of the states within the cut. -/
theorem cut (lists : Lists horizon base batches past) {k : Nat}
    (header : k = 0 ∨ walHeaderSize ≤ k) :
    ∃ batches', LogFile (some ((walBytes batches).take k)) batches' ∧
      Lists horizon base batches' (past.cut k) := by
  have whole {batches : List (List WalRecord)} (le : (walBytes batches).length ≤ k) :
      LogFile (some ((walBytes batches).take k)) batches := by
    rw [List.take_of_length_le le]
    exact .inr ⟨[], .inl rfl, by simp⟩
  induction lists with
  | start sound =>
    refine ⟨[], ?_, .start sound⟩
    have bytes : walBytes [] = walHeader := by simp [walBytes]
    rw [bytes]
    exact logFile_header header
  | @again batches past bank before same ih =>
    by_cases le : (walBytes batches).length ≤ k
    · refine ⟨batches, whole le, ?_⟩
      rw [Past.cut_of_le le]
      exact .again before same
    · obtain ⟨rest, shape, -⟩ := before.head
      have skip : Past.cut k (((walBytes batches).length, bank) :: past) = Past.cut k past := by
        rw [shape, Past.cut, if_neg le]
      rw [skip]
      exact ih
  | @more batches past rs bank before log sound ih =>
    by_cases le : (walBytes (batches ++ [rs])).length ≤ k
    · refine ⟨_, whole le, ?_⟩
      rw [Past.cut_of_le le]
      exact .more before log sound
    · obtain ⟨rest, shape, -⟩ := before.head
      have skip : Past.cut k (((walBytes (batches ++ [rs])).length, bank) :: past) =
          Past.cut k past := by
        rw [shape, Past.cut, if_neg le]
      rw [skip]
      by_cases inside : (walBytes batches).length ≤ k
      · -- The cut is inside the last frame.
        refine ⟨batches, ?_, ?_⟩
        · have length := congrArg List.length (walBytes_concat batches rs)
          rw [List.length_append] at length
          rw [walBytes_concat, List.take_append, List.take_of_length_le inside]
          exact logFile_part batches (log.loggable rs (by simp)) (by omega)
        · rw [shape, Past.cut_of_le inside, ← shape]
          exact before
      · rw [walBytes_concat, List.take_append_of_le_length (by omega)]
        exact ih

end Lists

theorem Kept.logLength {base : Bank} {batches : List (List WalRecord)}
    (kept : Kept cfg s base batches) :
    s.logLength = (walBytes batches).length := by
  rw [Session.logLength, kept.wal]
  rfl

/-- What a crash that cuts the log leaves in the directory. -/
theorem Kept.cut {cfg : CoreConfig} {s : Session} {live : Core} {base : Bank}
    {batches : List (List WalRecord)} {past : Past} (kept : Kept cfg ⟨live, s.files⟩ base batches)
    (wal : s.core.wal = live.wal)
    (lists : Lists cfg.bounds.dedupeWindow base batches past) {k : Nat}
    (header : k = 0 ∨ walHeaderSize ≤ k) : ∃ batches',
      (s.cut k).snapshot = s.files.snapshot ∧ LogFile (s.cut k).wal batches' ∧
      Lists cfg.bounds.dedupeWindow base batches' (past.cut k) := by
  have data : s.core.wal = some ⟨walBytes batches, (walBytes batches).length⟩ := wal.trans kept.wal
  obtain ⟨batches', logFile, lists'⟩ := lists.cut header
  refine ⟨batches', ?_, ?_, lists'⟩
  · simp [Session.cut, Session.directory, data]
  · simpa [Session.cut, Session.directory, data] using logFile

/-- The log of a session is the one of an engine that is in step with its files, and the states
are those of its batches. -/
theorem History.lists (durable : cfg.Durable) {past : Past} (history : History cfg s past) :
    ∃ live base batches,
      Kept cfg ⟨live, s.files⟩ base batches ∧ (s.core.poisoned = none → s.core = live) ∧
      s.core.wal = live.wal ∧ Lists cfg.bounds.dedupeWindow base batches past ∧
      past.last = live.bank := by
  induction history with
  | created opens =>
    obtain ⟨bank, kept⟩ := Kept.opened durable (reads_none _) (.empty _ _)
      (.inl ⟨rfl, rfl⟩) (.empty _) rfl opens
    refine ⟨_, {}, [], kept, fun _ => rfl, rfl, ?_, rfl⟩
    rw [bank]
    exact .start (.empty _)
  | @answered s past _ commands safe results ok ih =>
    obtain ⟨live, base, batches, kept, same, -, lists, last⟩ := ih
    obtain rfl := same (Core.opened_of_ok ok).2
    rcases kept.submit safe none with ⟨kept', bank⟩ | ⟨-, -, rs, kept'⟩ | ⟨⟨err, failed⟩, -⟩
    · refine ⟨_, base, batches, kept', fun _ => rfl, rfl, ?_, rfl⟩
      rw [Session.run, kept'.logLength]
      exact .again lists (last.trans bank.symm)
    · refine ⟨_, base, _, kept', fun _ => rfl, rfl, ?_, rfl⟩
      rw [Session.run, kept'.logLength]
      exact .more lists kept'.log kept'.sound
    · rw [ok] at failed
      cases failed
  | @refused s past _ commands safe err error ih =>
    obtain ⟨live, base, batches, kept, same, wal, lists, last⟩ := ih
    by_cases sane : s.core.poisoned = none
    · obtain rfl := same sane
      rcases kept.submit safe none with ⟨kept', bank⟩ | ⟨-, ⟨results, ok⟩, -⟩ |
        ⟨-, poisoned, unchanged, -⟩
      · exact ⟨_, base, batches, kept', fun _ => rfl, rfl, lists, last.trans bank.symm⟩
      · rw [error] at ok
        cases ok
      · exact ⟨s.core, base, batches, kept, fun h => absurd h poisoned, unchanged rfl, lists, last⟩
    · rw [Session.run, Session.Durable.submitBatch_poisoned sane]
      exact ⟨live, base, batches, kept, same, wal, lists, last⟩
  | @snapshotted s past _ safe size ok ih =>
    obtain ⟨live, base, batches, kept, same, -, -, -⟩ := ih
    obtain rfl := same safe.1
    have kept' := kept.whole_snapshot safe.2.1
    rw [← kept.snapshot_ok ok] at kept'
    refine ⟨_, _, [], kept', fun _ => rfl, rfl, .start kept.sound, ?_⟩
    exact (kept.snapshot safe.2.1 (by simp)).1.symm
  | @crashed s past _ k header unused e opens ih =>
    obtain ⟨live, base, batches, kept, -, wal, lists, -⟩ := ih
    obtain ⟨batches', snapshot, logFile, lists'⟩ := kept.cut wal lists header
    obtain ⟨-, -, log, sound⟩ := lists'.head
    obtain ⟨bank, kept'⟩ := Kept.opened durable (snapshot ▸ kept.reads) log
      logFile sound snapshot.symm opens
    exact ⟨e, base, batches', kept', fun _ => rfl, rfl, lists', bank.symm⟩

end OctetDB.Accounts
