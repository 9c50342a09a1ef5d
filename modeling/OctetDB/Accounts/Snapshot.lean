import OctetDB.Accounts.Engine

/-!
# The files of the account engine

A snapshot is one file behind a header with its length and digest: the sequence, the rows in
slot order, the ledger and the retained results in the order in which they expire. Opening an
engine loads the snapshot, if there is one, and applies the records of the log behind it.
-/

namespace OctetDB.Accounts

def snapshotVersion : UInt32 := 1
def snapshotHeaderSize : Nat := 52
def snapshotMagic : Bytes := ascii "OCTSNP01"

/-! ## Writing a snapshot -/

def encodeEntry (entry : Entry) : Bytes :=
  putUint64 entry.account.id ++ (appendI64 entry.account.balance ++
    (appendI64 entry.account.status ++ (putUint64 entry.account.version ++
    (flagByte entry.present entry.agent.pending.active ::
    (putUint64 entry.agent.pending.target ++ (appendI64 entry.agent.pending.amount ++
    appendI64 entry.agent.turns))))))

def encodeLedgerEntry (entry : LedgerEntry) : Bytes :=
  putUint64 entry.sequence ++ (putUint32 (UInt32.ofNat entry.commandID.length) ++
    (entry.commandID ++ (putUint64 entry.source ++ (putUint64 entry.target ++
    (appendI64 entry.amount ++ appendI64 entry.effectTag)))))

def encodeResult (id : Bytes) (r : Result) : Bytes :=
  putUint32 (UInt32.ofNat id.length) ++ (id ++ (putUint64 r.sequence ++
    ((if r.accepted then 1 else 0) :: (appendI64 r.reasonTag ++ (appendI64 r.effectTag ++
    appendI64 r.transitionCount)))))

/-- The IDs of the retained results, oldest first. -/
def Retained.active (m : Retained) : List Bytes := m.order.drop m.orderHead

namespace Core

/-- The part of a snapshot that its digest covers. -/
def snapshotPayload (e : Core) : Bytes :=
  putUint64 e.sequence ++ (putUint32 (UInt32.ofNat e.table.size) ++
    (e.table.rows.flatMap (fun row => encodeEntry row.2.toEntry) ++
    (putUint64 (UInt64.ofNat e.ledger.length) ++ (e.ledger.flatMap encodeLedgerEntry ++
    (putUint32 (UInt32.ofNat e.bounds.dedupeWindow) ++
    (putUint32 (UInt32.ofNat e.retained.active.length) ++
    e.retained.active.flatMap fun id => encodeResult id (e.retained.results.getD id {})))))))

def encodeSnapshot (e : Core) : Bytes :=
  snapshotMagic ++ (putUint32 snapshotVersion ++
    (putUint64 (UInt64.ofNat e.snapshotPayload.length) ++
    (sha256 e.snapshotPayload ++ e.snapshotPayload)))

end Core

/-! ## Loading a snapshot -/

/-- Reads a text behind its length, which leaves at least `least` bytes. -/
def takeText (least : Nat) (src : Bytes) : Except ReadError (Bytes × Bytes) := do
  let (length, src) ← takeU32 src
  let idLen := length.toNat
  failIf (idLen = 0 ∨ idLen > src.length ∨ src.length - idLen < least) unexpectedEOF
  .ok (src.take idLen, src.drop idLen)

def readEntry (src : Bytes) : Except ReadError (Entry × Bytes) := do
  failIf (src.length < 57) unexpectedEOF
  let (id, src) ← takeU64 src
  let (balance, src) ← takeI64 src
  let (status, src) ← takeI64 src
  let (version, src) ← takeU64 src
  let (flags, src) ← takeByte src
  let (target, src) ← takeU64 src
  let (amount, src) ← takeI64 src
  let (turns, src) ← takeI64 src
  .ok ({ account := { id, balance, status, version }, present := flags &&& 1 != 0
         agent := { pending := { active := flags &&& 2 != 0, target, amount }, turns } }, src)

/-- Gives an account its slot and its entry. -/
def Core.load (e : Core) (entry : Entry) : Core :=
  let (e, slot) := e.slot entry.account.id true
  e.modifyRow slot fun row => { row with toEntry := entry }

def readEntries : Nat → Core → Bytes → Except ReadError (Core × Bytes)
  | 0, e, src => .ok (e, src)
  | count + 1, e, src => do
    let (entry, src) ← readEntry src
    readEntries count (e.load entry) src

def readLedgerEntry (src : Bytes) : Except ReadError (LedgerEntry × Bytes) := do
  failIf (src.length < 12) unexpectedEOF
  let (sequence, src) ← takeU64 src
  let (commandID, src) ← takeText 32 src
  let (source, src) ← takeU64 src
  let (target, src) ← takeU64 src
  let (amount, src) ← takeI64 src
  let (effectTag, src) ← takeI64 src
  .ok ({ sequence, commandID, source, target, amount, effectTag }, src)

/-- The loop over the ledger, with the sequence of the entry before. -/
def readLedger (sequence : UInt64) :
    Nat → UInt64 → Bytes → Except ReadError (List LedgerEntry × Bytes)
  | 0, _, src => .ok ([], src)
  | count + 1, prior, src => do
    let (entry, src) ← readLedgerEntry src
    failIf (entry.sequence ≤ prior ∨ entry.sequence > sequence ∨ entry.commandID = [])
      (.plain "invalid core snapshot ledger order or identity")
    let (entries, src) ← readLedger sequence count entry.sequence src
    .ok (entry :: entries, src)

def readResult (src : Bytes) : Except ReadError (Result × Bytes) := do
  failIf (src.length < 4) unexpectedEOF
  let (commandID, src) ← takeText 33 src
  let (sequence, src) ← takeU64 src
  let (accepted, src) ← takeByte src
  let (reasonTag, src) ← takeI64 src
  let (effectTag, src) ← takeI64 src
  let (transitionCount, src) ← takeI64 src
  .ok ({ sequence, commandID, accepted := accepted != 0, reasonTag, effectTag
         transitionCount }, src)

/-- The loop over the results, with the sequence of the one before and the IDs so far. -/
def readResults (window : Nat) (sequence : UInt64) :
    Nat → UInt64 → List Bytes → Retained → Bytes → Except ReadError (Retained × Bytes)
  | 0, _, _, m, src => .ok (m, src)
  | count + 1, prior, seen, m, src => do
    let (r, src) ← readResult src
    failIf (r.commandID ∈ seen ∨ r.sequence ≤ prior ∨ r.sequence > sequence)
      (.plain "invalid core snapshot dedupe order or identity")
    readResults window sequence count r.sequence (r.commandID :: seen)
      (m.remember window r.commandID r) src

def Core.loadPayload (e : Core) (size : Nat) (src : Bytes) : Except ReadError Core := do
  failIf (src.length < 12) unexpectedEOF
  let (sequence, src) ← takeU64 src
  let (count, src) ← takeU32 src
  let (e, src) ← readEntries count.toNat { e with sequence := sequence } src
  failIf (src.length < 8) unexpectedEOF
  let (ledgerCount, src) ← takeU64 src
  failIf (ledgerCount.toNat > size / 44) (.plain "invalid core snapshot ledger count")
  let (ledger, src) ← readLedger sequence ledgerCount.toNat 0 src
  failIf (src.length < 8) unexpectedEOF
  let (horizon, src) ← takeU32 src
  let (resultCount, src) ← takeU32 src
  failIf (horizon.toNat ≠ e.bounds.dedupeWindow ∨ resultCount.toNat > e.bounds.dedupeWindow)
    (.runtime ⟨.recoveryIncompatible,
      "snapshot dedupe horizon differs from configured DedupeHorizon"⟩)
  let (retained, src) ← readResults e.bounds.dedupeWindow sequence resultCount.toNat 0 [] e.retained
    src
  failIf (src ≠ []) (.plain "core snapshot trailing bytes")
  .ok { e with ledger := ledger, retained := retained }

def Core.loadSnapshot (e : Core) (file : Option Bytes) : Except ReadError Core :=
  match file with
  | none => .ok e
  | some data =>
    let version := uint32 (data.drop 8)
    let payload := data.drop snapshotHeaderSize
    if data.length ≥ 12 ∧ data.take 8 = snapshotMagic ∧ version ≠ snapshotVersion then
      .error (.runtime ⟨.recoveryIncompatible, s!"snapshot format version {version}"⟩)
    else if data.length < snapshotHeaderSize ∨ data.take 8 ≠ snapshotMagic ∨
        (uint64 (data.drop 12)).toNat ≠ data.length - snapshotHeaderSize ∨
        (data.drop 20).take 32 ≠ sha256 payload then
      .error (.plain "invalid snapshot or format version")
    else e.loadPayload data.length payload

/-! ## Reading back what was written -/

theorem takeText_append {least : Nat} {text rest : Bytes} (named : text ≠ [])
    (short : text.length < 2 ^ 32) (enough : least ≤ rest.length) :
    takeText least (putUint32 (UInt32.ofNat text.length) ++ (text ++ rest)) = .ok (text, rest) := by
  have length : (UInt32.ofNat text.length).toNat = text.length := by
    rw [UInt32.toNat_ofNat', Nat.mod_eq_of_lt short]
  simp only [takeText, takeU32_append, bind, Except.bind, length]
  rw [failIf_neg (by simp [named]; omega)]
  simp [List.take_left', List.drop_left']

@[simp] theorem length_encodeEntry (entry : Entry) : (encodeEntry entry).length = 57 := by
  simp [encodeEntry]

theorem readEntry_encodeEntry (entry : Entry) (rest : Bytes) :
    readEntry (encodeEntry entry ++ rest) = .ok (entry, rest) := by
  have enough : ¬ (encodeEntry entry ++ rest).length < 57 := by simp
  unfold readEntry
  rw [failIf_neg enough]
  simp [encodeEntry, bind, Except.bind, takeByte]

theorem readEntries_encode (entries : List Entry) (e : Core) (rest : Bytes) :
    readEntries entries.length e (entries.flatMap encodeEntry ++ rest) =
      .ok (entries.foldl Core.load e, rest) := by
  induction entries generalizing e with
  | nil => rfl
  | cons entry entries ih =>
    simp only [List.length_cons, readEntries, List.flatMap_cons, List.append_assoc,
      readEntry_encodeEntry, bind, Except.bind, ih, List.foldl_cons]

/-- The ledger and the retained results name their commands. -/
def Named (id : Bytes) : Prop := id ≠ [] ∧ id.length < 2 ^ 32

theorem readLedgerEntry_encode {entry : LedgerEntry} (named : Named entry.commandID)
    (rest : Bytes) : readLedgerEntry (encodeLedgerEntry entry ++ rest) = .ok (entry, rest) := by
  have enough : ¬ (encodeLedgerEntry entry ++ rest).length < 12 := by
    simp [encodeLedgerEntry]; omega
  unfold readLedgerEntry
  rw [failIf_neg enough]
  have text (tail : Bytes) := takeText_append named.1 named.2
    (show 32 ≤ (putUint64 entry.source ++ (putUint64 entry.target ++ (appendI64 entry.amount ++
      (appendI64 entry.effectTag ++ tail)))).length by simp; omega)
  simp [encodeLedgerEntry, bind, Except.bind, text]

theorem readLedger_encode {entries : List LedgerEntry} {sequence prior : UInt64}
    (named : ∀ entry ∈ entries, Named entry.commandID)
    (increasing : (prior :: entries.map (·.sequence)).Pairwise (· < ·))
    (le : ∀ entry ∈ entries, entry.sequence ≤ sequence) (rest : Bytes) :
    readLedger sequence entries.length prior (entries.flatMap encodeLedgerEntry ++ rest) =
      .ok (entries, rest) := by
  induction entries generalizing prior with
  | nil => rfl
  | cons entry entries ih =>
    obtain ⟨name, named⟩ := List.forall_mem_cons.mp named
    obtain ⟨bound, le⟩ := List.forall_mem_cons.mp le
    obtain ⟨above, increasing⟩ := List.pairwise_cons.mp increasing
    have later := above entry.sequence (by simp)
    have ordered : ¬ (entry.sequence ≤ prior ∨ entry.sequence > sequence ∨
        entry.commandID = []) := by
      simp [name.1, later, bound]
    simp only [List.length_cons, readLedger, List.flatMap_cons, List.append_assoc,
      readLedgerEntry_encode name, bind, Except.bind]
    rw [failIf_neg ordered]
    simp only [ih named increasing le]

theorem readResult_encode {r : Result} (named : Named r.commandID) (fresh : r.duplicate = false)
    (rest : Bytes) : readResult (encodeResult r.commandID r ++ rest) = .ok (r, rest) := by
  have enough : ¬ (encodeResult r.commandID r ++ rest).length < 4 := by
    simp [encodeResult]
  unfold readResult
  rw [failIf_neg enough]
  have text (b : UInt8) (tail : Bytes) := takeText_append named.1 named.2
    (show 33 ≤ (putUint64 r.sequence ++ (b :: (appendI64 r.reasonTag ++ (appendI64 r.effectTag ++
      (appendI64 r.transitionCount ++ tail))))).length by simp; omega)
  obtain ⟨sequence, commandID, accepted, reasonTag, effectTag, transitionCount, duplicate⟩ := r
  simp only at fresh
  subst fresh
  cases accepted <;> simp [encodeResult, bind, Except.bind, takeByte] at text ⊢ <;> simp [text]

theorem readResults_encode {results : List Result} {window : Nat} {sequence prior : UInt64}
    {seen : List Bytes} (m : Retained) (named : ∀ r ∈ results, Named r.commandID)
    (fresh : ∀ r ∈ results, r.duplicate = false)
    (nodup : (results.map (·.commandID)).Nodup)
    (unseen : ∀ r ∈ results, r.commandID ∉ seen)
    (increasing : (prior :: results.map (·.sequence)).Pairwise (· < ·))
    (le : ∀ r ∈ results, r.sequence ≤ sequence) (rest : Bytes) :
    readResults window sequence results.length prior seen m
        (results.flatMap (fun r => encodeResult r.commandID r) ++ rest) =
      .ok (results.foldl (fun m r => m.remember window r.commandID r) m, rest) := by
  induction results generalizing prior seen m with
  | nil => rfl
  | cons r results ih =>
    obtain ⟨name, named⟩ := List.forall_mem_cons.mp named
    obtain ⟨first, fresh⟩ := List.forall_mem_cons.mp fresh
    obtain ⟨bound, le⟩ := List.forall_mem_cons.mp le
    obtain ⟨new, unseen⟩ := List.forall_mem_cons.mp unseen
    obtain ⟨above, increasing⟩ := List.pairwise_cons.mp increasing
    obtain ⟨out, nodup⟩ := List.nodup_cons.mp nodup
    have later := above r.sequence (by simp)
    have ordered : ¬ (r.commandID ∈ seen ∨ r.sequence ≤ prior ∨ r.sequence > sequence) := by
      simp [new, later, bound]
    have unseen : ∀ q ∈ results, q.commandID ∉ r.commandID :: seen := by
      intro q mem
      simp only [List.mem_cons, not_or]
      exact ⟨fun same => out (List.mem_map.mpr ⟨q, mem, same⟩), unseen q mem⟩
    simp only [List.length_cons, readResults, List.flatMap_cons, List.append_assoc,
      readResult_encode name first, bind, Except.bind]
    rw [failIf_neg ordered]
    simp only [ih _ named fresh nodup unseen increasing le, List.foldl_cons]

/-! ## Opening an engine -/

inductive DurabilityMode where
  | memoryOnly
  | batchSync
  | syncEach
  deriving DecidableEq, Repr

/-- The configuration of an engine. `storageDir` tells whether there is a directory. -/
structure CoreConfig where
  storageDir : Bool := true
  durability : DurabilityMode := .batchSync
  dedupeWindow : Int := 0
  maxAccounts : Int := 0
  batchMax : Int := 0
  accountHint : Int := 0
  recordHint : Int := 0
  deriving DecidableEq, Repr

def orDefault (n : Int) (fallback : Nat) : Nat := if n ≤ 0 then fallback else n.toNat

theorem orDefault_pos (n : Int) {fallback : Nat} (h : 0 < fallback) : 0 < orDefault n fallback := by
  unfold orDefault
  split <;> omega

def CoreConfig.bounds (cfg : CoreConfig) : Bounds where
  dedupeWindow := orDefault cfg.dedupeWindow 100000
  maxAccounts := orDefault cfg.maxAccounts 100000
  batchMax := orDefault cfg.batchMax 512
  window_pos := orDefault_pos _ (by decide)
  accounts_pos := orDefault_pos _ (by decide)
  batch_pos := orDefault_pos _ (by decide)

structure Directory where
  snapshot : Option Bytes := none
  snapshotTmp : Option Bytes := none
  wal : Option Bytes := none
  deriving DecidableEq, Repr

/-- The log file after opening, and its records behind a sequence. A file that is empty gets a
header, and what follows the whole frames is cut off. -/
def openWAL (cfg : CoreConfig) (file : Option Bytes) (unused : Bytes) (after : UInt64) :
    Except ReadError (Option WalFile × List WalRecord) :=
  if cfg.durability = .memoryOnly then .ok (none, [])
  else if cfg.storageDir = false then
    .error (.plain "durable mode requires a storage directory")
  else
    let data := if file.getD [] = [] then walHeader else file.getD []
    match scanWAL data unused after with
    | .error err => .error err
    | .ok scan => .ok (some ⟨data.take scan.pos, scan.pos⟩, scan.records)

/-- A byte of a quoted text. Beyond ASCII the source keeps the bytes of printable characters, and
here each byte is escaped. -/
def quoteByte (b : UInt8) : String :=
  match b with
  | 7 => "\\a" | 8 => "\\b" | 9 => "\\t" | 10 => "\\n" | 11 => "\\v" | 12 => "\\f" | 13 => "\\r"
  | 34 => "\\\"" | 92 => "\\\\"
  | b =>
    if 32 ≤ b ∧ b < 127 then String.singleton (Char.ofNat b.toNat)
    else "\\x" ++ String.ofList (Nat.toDigits 16 (256 + b.toNat)).tail

def Core.applyRecovered (e : Core) (r : WalRecord) : Except ReadError Core :=
  let prior := e.retained.results[r.commandID]?
  let (t, aSlot) := e.slot r.a (r.effect = 1 ∧ r.accepted)
  let a := t.accountFor aSlot
  let b := t.accountFor (t.otherSlot r.b)
  if prior.any (·.sequence ≠ r.sequence) then
    .error (.plain ("core duplicate durable command ID \"" ++
      String.join (r.commandID.map quoteByte) ++ "\""))
  else if a.version ≠ r.expectedA ∨ b.version ≠ r.expectedB then
    .error (.plain s!"core version mismatch at sequence {r.sequence}")
  else .ok (t.applyDurable r)

def ReadError.classify : ReadError → ReadError
  | .plain message => .runtime ⟨.recoveryCorrupt, message⟩
  | err => err

/-- One record of the log when an engine is opened. -/
def Core.replay (e : Core) (r : WalRecord) : Except ReadError Core :=
  if r.sequence ≠ e.sequence + 1 then
    .error (.runtime ⟨.recoveryCorrupt,
      s!"non-monotonic sequence {r.sequence} after {e.sequence}"⟩)
  else (e.applyRecovered r).mapError ReadError.classify

/-- Opens an engine on a directory. `unused` is the unused capacity of the buffer that the log
is read into. -/
def openCore (cfg : CoreConfig) (d : Directory) (unused : Bytes) : Except ReadError Core := do
  failIf (cfg.accountHint < 0 ∨ cfg.recordHint < 0) (.plain "negative core capacity hint")
  failIf (cfg.durability = .syncEach)
    (.plain "core supports MemoryOnly or one durable Sync per offered batch")
  let e : Core := { bounds := cfg.bounds }
  let e ← (e.loadSnapshot (if cfg.storageDir then d.snapshot else none)).mapError ReadError.classify
  let (wal, records) ← (openWAL cfg d.wal unused e.sequence).mapError ReadError.classify
  let e ← records.foldlM Core.replay { e with wal := wal }
  failIf (e.table.size > e.bounds.maxAccounts)
    (.runtime ⟨.recoveryIncompatible,
      s!"database contains {e.table.size} accounts, configured maximum is {e.bounds.maxAccounts}"⟩)
  .ok e

end OctetDB.Accounts
