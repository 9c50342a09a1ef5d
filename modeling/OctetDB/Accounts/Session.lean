import OctetDB.Accounts.Snapshot
import OctetDB.Accounts.Submit

/-!
# Sessions

A session is an open engine with its directory. Submitting batches, taking snapshots and
closing the engine are its operations; an engine is opened again from the files that are there.
-/

namespace OctetDB.Accounts

/-- An engine and the files beside its log. While the engine has no log file, `files` also has
the log that is in the directory. -/
structure Session where
  core : Core
  files : Directory := {}

namespace Session

def directory (s : Session) : Directory :=
  match s.core.wal with
  | some file => { s.files with wal := some file.data }
  | none => s.files

def withWal (s : Session) (f : WalFile → WalFile) : Session :=
  { s with core := { s.core with wal := s.core.wal.map f } }

end Session

/-! ## Taking a snapshot -/

inductive SnapshotOp where
  | create
  | write
  | sync
  | close
  | rename
  | openDirectory
  | syncDirectory
  | closeDirectory
  | truncate
  | seekStart
  | writeHeader
  | syncWal
  | seekEnd
  deriving DecidableEq, Repr

def snapshotOps : List SnapshotOp :=
  [.create, .write, .sync, .close, .rename, .openDirectory, .syncDirectory, .closeDirectory,
    .truncate, .seekStart, .writeHeader, .syncWal, .seekEnd]

namespace SnapshotOp

/-- A write at the start of the log file, which leaves its position. -/
def overwrite (bs : Bytes) (file : WalFile) : WalFile :=
  { file with data := bs ++ file.data.drop bs.length }

def run (payload : Bytes) (s : Session) : SnapshotOp → Session
  | .create => { s with files := { s.files with snapshotTmp := some [] } }
  | .write => { s with files := { s.files with snapshotTmp := some payload } }
  | .rename =>
    { s with files := { s.files with snapshot := s.files.snapshotTmp, snapshotTmp := none } }
  | .truncate => s.withWal fun file => { file with data := [] }
  | .seekStart => s.withWal fun file => { file with offset := 0 }
  | .writeHeader => s.withWal (overwrite walHeader)
  | .seekEnd => s.withWal fun file => { file with offset := file.data.length }
  | .sync | .close | .openDirectory | .syncDirectory | .closeDirectory | .syncWal => s

/-- An operation that fails; a write may have written its first `n` bytes. -/
def fail (payload : Bytes) (n : Nat) (s : Session) : SnapshotOp → Session
  | .write => { s with files := { s.files with snapshotTmp := some (payload.take n) } }
  | .writeHeader => s.withWal (overwrite (walHeader.take n))
  | _ => s

/-- The operation changes the log file, which an engine that is closed cannot do. -/
def onWal : SnapshotOp → Bool
  | .truncate | .seekStart | .writeHeader | .syncWal | .seekEnd => true
  | _ => false

/-- The temporary file is removed if the operation fails. -/
def removesTmp : SnapshotOp → Bool
  | .write | .sync | .close | .rename => true
  | _ => false

end SnapshotOp

/-- The operation of a snapshot that fails, and how much it wrote if it is a write. -/
structure SnapshotFault where
  op : SnapshotOp
  written : Nat := 0
  message : String
  deriving DecidableEq, Repr

/-- The fault that a snapshot meets. -/
def Core.snapshotFault (e : Core) (fault : Option SnapshotFault) : Option SnapshotFault :=
  if e.closed ∧ fault.all (·.op.onWal) then some ⟨.truncate, 0, "file already closed"⟩
  else fault

/-- The session after a snapshot with a fault. -/
def Session.snapshotUntil (s : Session) (f : SnapshotFault) : Session :=
  let payload := s.core.encodeSnapshot
  let s := (snapshotOps.takeWhile (· ≠ f.op)).foldl (SnapshotOp.run payload) s
  let s := f.op.fail payload f.written s
  if f.op.removesTmp then { s with files := { s.files with snapshotTmp := none } } else s

def Session.snapshot (s : Session) (fault : Option SnapshotFault) :
    Session × Except String Nat :=
  let payload := s.core.encodeSnapshot
  if s.core.wal.isNone then (s, .error "snapshots require durable storage")
  else
    match s.core.snapshotFault fault with
    | none => (snapshotOps.foldl (SnapshotOp.run payload) s, .ok payload.length)
    | some f => (s.snapshotUntil f, .error f.message)

theorem SnapshotOp.core_run (payload : Bytes) (ops : List SnapshotOp) (s : Session) :
    ∃ wal, (ops.foldl (run payload) s).core = { s.core with wal := wal } := by
  induction ops generalizing s with
  | nil => exact ⟨s.core.wal, rfl⟩
  | cons op ops ih =>
    obtain ⟨wal, rest⟩ := ih (op.run payload s)
    refine ⟨wal, rest.trans ?_⟩
    cases op <;> rfl

theorem SnapshotOp.core_fail (payload : Bytes) (n : Nat) (s : Session) (op : SnapshotOp) :
    ∃ wal, (op.fail payload n s).core = { s.core with wal := wal } := by
  cases op
  case writeHeader => exact ⟨_, rfl⟩
  all_goals exact ⟨s.core.wal, rfl⟩

/-- A snapshot changes the log file of the engine only. -/
theorem Session.core_snapshot (s : Session) (fault : Option SnapshotFault) :
    ∃ wal, (s.snapshot fault).1.core = { s.core with wal := wal } := by
  unfold Session.snapshot
  split
  · exact ⟨s.core.wal, rfl⟩
  split
  · exact SnapshotOp.core_run _ _ s
  · rename_i f _
    obtain ⟨wal, before⟩ := SnapshotOp.core_run s.core.encodeSnapshot
      (snapshotOps.takeWhile (· ≠ f.op)) s
    obtain ⟨wal', failed⟩ := SnapshotOp.core_fail s.core.encodeSnapshot f.written
      ((snapshotOps.takeWhile (· ≠ f.op)).foldl (SnapshotOp.run s.core.encodeSnapshot) s) f.op
    refine ⟨wal', ?_⟩
    rw [before] at failed
    simp only [Session.snapshotUntil]
    split <;> exact failed

/-! ## Reachable engines -/

/-- The engines that some directory and some operations lead to. -/
inductive Core.Reachable : Core → Prop
  | opened {cfg : CoreConfig} {d : Directory} {unused : Bytes} {e : Core}
    (opens : openCore cfg d unused = .ok e) : Reachable e
  | submitted {e : Core} (before : Reachable e) (commands : List Command)
    (fault : Option AppendFault) : Reachable (e.submitBatch commands fault).1
  | snapshotted {e : Core} (before : Reachable e) (files : Directory)
    (fault : Option SnapshotFault) : Reachable (Session.snapshot ⟨e, files⟩ fault).1.core
  | closed {e : Core} (before : Reachable e) : Reachable e.close

structure CoreConfig.Durable (cfg : CoreConfig) : Prop where
  batchSync : cfg.durability = .batchSync
  storageDir : cfg.storageDir = true
  accountHint : 0 ≤ cfg.accountHint
  recordHint : 0 ≤ cfg.recordHint

def Core.created (cfg : CoreConfig) : Core :=
  { bounds := cfg.bounds, wal := some ⟨walHeader, walHeaderSize⟩ }

/-- The header that a new log gets is a log without records. -/
theorem scanWAL_walHeader (unused : Bytes) (after : UInt64) :
    scanWAL walHeader unused after = .ok ⟨walHeaderSize, []⟩ := by
  have scan := scanWAL_walBytes (List.forall_mem_nil LoggableBatch) (.inl rfl) unused after
  have bytes : walBytes [] = walHeader := by simp [walBytes]
  rw [bytes, List.append_nil, length_walHeader] at scan
  exact scan

/-- An engine on an empty directory has nothing but a log, if it is durable. -/
theorem openCore_new {cfg : CoreConfig} {unused : Bytes} {e : Core}
    (opens : openCore cfg {} unused = .ok e) : ∃ wal, e = { bounds := cfg.bounds, wal := wal } := by
  obtain ⟨-, -, opens⟩ := bind_ok.mp opens
  obtain ⟨-, -, opens⟩ := bind_ok.mp opens
  obtain ⟨t, loads, opens⟩ := bind_ok.mp opens
  obtain ⟨⟨wal, records⟩, log, opens⟩ := bind_ok.mp opens
  obtain ⟨u, replays, opens⟩ := bind_ok.mp opens
  obtain ⟨-, -, opens⟩ := bind_ok.mp opens
  obtain rfl := Except.ok.inj opens
  rw [ite_self] at loads
  obtain rfl := Except.ok.inj loads
  have none : records = [] := by
    rw [mapError_ok] at log
    unfold openWAL at log
    split at log
    · cases log; rfl
    split at log
    · cases log
    · simp only [Option.getD_none, if_true, scanWAL_walHeader] at log
      cases log
      rfl
  subst none
  exact ⟨wal, (foldlM_nil_ok.mp replays).symm⟩

theorem openCore_empty {cfg : CoreConfig} (durable : cfg.Durable) (unused : Bytes) :
    openCore cfg {} unused = .ok (.created cfg) := by
  have scan := scanWAL_walHeader unused 0
  have log : openWAL cfg none unused 0 = .ok (some ⟨walHeader, walHeaderSize⟩, []) := by
    have whole : walHeader.take walHeaderSize = walHeader :=
      List.take_of_length_le length_walHeader.le
    simp [openWAL, durable.batchSync, durable.storageDir, scan, whole]
  have hints := durable.accountHint
  have hints' := durable.recordHint
  unfold openCore
  rw [failIf_neg (by omega), failIf_neg (by simp [durable.batchSync])]
  simp [bind, Except.bind, Except.mapError, Core.loadSnapshot, log, failIf, pure, Except.pure,
    Core.created]

namespace Core

variable {e t : Core}

theorem MarksBelow.load (below : e.MarksBelow) (entry : Entry) : (e.load entry).MarksBelow :=
  (below.slot entry.account.id true).modifyRow _ fun _ h => h

theorem MarksBelow.readEntries {count : Nat} {src rest : Bytes} (below : e.MarksBelow)
    (read : readEntries count e src = .ok (t, rest)) : t.MarksBelow := by
  induction count generalizing e src with
  | zero => cases read; exact below
  | succ count ih =>
    obtain ⟨⟨entry, src⟩, -, read⟩ := bind_ok.mp read
    exact ih (below.load entry) read

theorem MarksBelow.loadPayload {size : Nat} {src : Bytes} (below : e.MarksBelow)
    (payload : e.loadPayload size src = .ok t) : t.MarksBelow := by
  simp only [Core.loadPayload, bind_ok, Prod.exists, Except.ok.injEq] at payload
  obtain ⟨_, -, sequence, _, -, _, _, -, _, _, read, payload⟩ := payload
  obtain ⟨_, -, _, _, -, _, -, _, _, -, _, -, _, _, -, _, _, -, _, -, _, _, -, _, -, rfl⟩ := payload
  have loaded := MarksBelow.readEntries (e := { e with sequence := sequence }) below read
  exact loaded

theorem MarksBelow.loadSnapshot {file : Option Bytes} (below : e.MarksBelow)
    (loads : e.loadSnapshot file = .ok t) : t.MarksBelow := by
  cases file with
  | none => cases loads; exact below
  | some data =>
    simp only [Core.loadSnapshot] at loads
    split at loads
    · cases loads
    split at loads
    · cases loads
    · exact below.loadPayload loads

theorem MarksBelow.replay {r : WalRecord} (below : e.MarksBelow) (replay : e.replay r = .ok t) :
    t.MarksBelow := by
  unfold Core.replay at replay
  split at replay
  · cases replay
  · have applied := mapError_ok.mp replay
    simp only [Core.applyRecovered] at applied
    split at applied
    · cases applied
    split at applied
    · cases applied
    · cases applied
      exact (below.slot _ _).applyDurable r

theorem MarksBelow.opened {cfg : CoreConfig} {d : Directory} {unused : Bytes}
    (opens : openCore cfg d unused = .ok e) : e.MarksBelow := by
  simp only [openCore, bind_ok, mapError_ok, Prod.exists, Except.ok.injEq] at opens
  obtain ⟨_, -, _, -, loaded, loads, wal, records, -, last, replays, _, -, rfl⟩ := opens
  have below := MarksBelow.loadSnapshot (e := { bounds := cfg.bounds }) (Table.All.empty _) loads
  have replayed : ∀ (rs : List WalRecord) (e t : Core), e.MarksBelow →
      rs.foldlM Core.replay e = .ok t → t.MarksBelow := by
    intro rs
    induction rs with
    | nil => intro e t below same; exact foldlM_nil_ok.mp same ▸ below
    | cons r rs ih =>
      intro e t below run
      obtain ⟨u, first, rest⟩ := foldlM_cons_ok.mp run
      exact ih u t (below.replay first) rest
  exact replayed records { loaded with wal := wal } last below replays

theorem Reachable.marksBelow (reachable : e.Reachable) : e.MarksBelow := by
  induction reachable with
  | opened opens => exact .opened opens
  | submitted _ commands fault below => exact below.submitBatch commands fault
  | @snapshotted e _ files fault below =>
    obtain ⟨wal, same⟩ := Session.core_snapshot ⟨e, files⟩ fault
    rw [same]
    exact below
  | closed _ below => exact below

end Core

end OctetDB.Accounts
