import OctetDB.Accounts.Wal
import OctetDB.Lib.Table
import OctetDB.Lib.Window

/-!
# The account engine

An account ID is resolved to a slot, a row of the engine's table. A batch is decided command
by command before anything is durable: the accounts it changes are staged in the scratch
columns of their rows, which are marked with the epoch of the batch, while the agents and new
slots are written at once. When the frame of the batch is synchronized, its records are
applied to the authoritative columns.
-/

namespace OctetDB.Accounts

/-! ## State -/

structure Bounds where
  dedupeWindow : Nat
  maxAccounts : Nat
  batchMax : Nat
  window_pos : 0 < dedupeWindow
  accounts_pos : 0 < maxAccounts
  batch_pos : 0 < batchMax
  deriving Repr

/-- The authoritative columns of a row. -/
structure Entry where
  account : Account
  present : Bool := false
  agent : AgentState := {}
  deriving DecidableEq, Repr

structure Row extends Entry where
  scratch : Account := {}
  mark : UInt32 := 0
  deriving DecidableEq, Repr

def Entry.fresh (id : AccountID) : Entry := { account := { id := id } }

def Row.fresh (id : AccountID) : Row := { toEntry := .fresh id }

theorem noneExpired : 0 ≤ ([] : List Bytes).length := le_rfl

/-- The results the engine remembers. IDs before the head of the order have expired; they are
cut off when they are at least half of it. -/
structure Retained where
  results : ByteMap Result := ∅
  order : List Bytes := []
  orderHead : Nat := 0
  head_le : orderHead ≤ order.length := by first | exact noneExpired | simp

def Retained.compact (m : Retained) (window : Nat) : Retained :=
  if m.orderHead ≥ window ∧ m.orderHead * 2 ≥ m.order.length then
    { results := m.results, order := m.order.drop m.orderHead }
  else m

def Retained.remember (m : Retained) (window : Nat) (id : Bytes) (result : Result) : Retained :=
  let results := m.results.insert id result
  let order := m.order ++ [id]
  have head_le : m.orderHead < order.length := by
    have := m.head_le; simp [order]; omega
  let added : Retained :=
    if order.length - m.orderHead > window then
      ⟨results.erase (order.getD m.orderHead []), order, m.orderHead + 1, head_le⟩
    else ⟨results, order, m.orderHead, head_le.le⟩
  added.compact window

/-- The log file: its contents and the position of the next write. -/
structure WalFile where
  data : Bytes
  offset : Nat
  deriving DecidableEq, Repr

/-- A write at the position of the file; a gap before it is filled with zeros. -/
def WalFile.write (w : WalFile) (bs : Bytes) : WalFile where
  data := w.data.take w.offset ++ (List.replicate (w.offset - w.data.length) 0 ++ (bs ++
    w.data.drop (w.offset + bs.length)))
  offset := w.offset + bs.length

/-- An engine. It has a log file if it is durable. -/
structure Core where
  bounds : Bounds
  table : Table Row := .empty
  ledger : List LedgerEntry := []
  epoch : UInt32 := 0
  retained : Retained := {}
  sequence : UInt64 := 0
  wal : Option WalFile := none
  closed : Bool := false
  poisoned : Option String := none

/-! ## Slots and effects -/

namespace Core

/-- The slot of an account, which is allocated if `create` is set. The source keeps slots in 32
bits, so this is its engine up to `2 ^ 32` accounts, beyond which slots would be shared. -/
def slot (e : Core) (id : AccountID) (create : Bool) : Core × Option Nat :=
  let e := if create then { e with table := e.table.ensure id (.fresh id) } else e
  (e, e.table.slot id)

/-- The slot of the other account of a command or record; the ID zero stands for none. -/
def otherSlot (e : Core) (id : AccountID) : Option Nat :=
  if id ≠ 0 then (e.slot id false).2 else none

/-- The row has an account staged by the batch that is decided. -/
def Marked (e : Core) (row : Row) : Prop := e.epoch ≠ 0 ∧ row.mark = e.epoch

instance (e : Core) (row : Row) : Decidable (e.Marked row) :=
  inferInstanceAs (Decidable (_ ∧ _))

def accountFor (e : Core) (slot : Option Nat) : Account :=
  match slot.bind e.table.row with
  | none => {}
  | some row => if e.Marked row then row.scratch else row.account

/-- There is an account in the slot, durable or staged. -/
def existsIn (e : Core) (slot : Option Nat) : Bool :=
  match slot.bind e.table.row with
  | none => false
  | some row => row.present || decide (e.Marked row)

def agentFor (e : Core) (slot : Option Nat) : AgentState :=
  match slot.bind e.table.row with
  | none => {}
  | some row => row.agent

/-- Changes the row of a slot; a slot that was not found is zero. -/
def modifyRow (e : Core) (slot : Option Nat) (f : Row → Row) : Core :=
  { e with table := e.table.modify (slot.getD 0) f }

end Core

/-- The account a record creates. -/
def WalRecord.created (r : WalRecord) : Account :=
  { id := r.a, balance := r.newBalanceA, status := statusOpen, version := 1 }

def Account.withBalance (a : Account) (balance : Int64) : Account :=
  { a with balance := balance, version := a.version + 1 }

def Account.withStatus (a : Account) (status : Int64) : Account :=
  { a with status := status, version := a.version + 1 }

namespace Core

def stage (e : Core) (slot : Option Nat) (a : Account) : Core :=
  e.modifyRow slot fun row => { row with scratch := a, mark := e.epoch }

def stageEffect (e : Core) (aSlot bSlot : Option Nat) (r : WalRecord) : Core :=
  let a := e.accountFor (some (aSlot.getD 0))
  let b := e.accountFor (some (bSlot.getD 0))
  if r.effect = 1 then e.stage aSlot r.created
  else if r.effect = 2 then e.stage aSlot (a.withBalance r.newBalanceA)
  else if r.effect = 3 then
    (e.stage aSlot (a.withBalance r.newBalanceA)).stage bSlot (b.withBalance r.newBalanceB)
  else if r.effect = 4 then e.stage aSlot (a.withStatus r.newStatus)
  else e

def accountAt (e : Core) (slot : Option Nat) : Account :=
  match e.table.row (slot.getD 0) with
  | none => {}
  | some row => row.account

def store (e : Core) (slot : Option Nat) (a : Account) : Core :=
  e.modifyRow slot fun row => { row with account := a }

def writeEffect (e : Core) (aSlot bSlot : Option Nat) (r : WalRecord) : Core :=
  let a := e.accountAt aSlot
  let b := e.accountAt bSlot
  if r.effect = 1 then
    e.modifyRow aSlot fun row => { row with account := r.created, present := true }
  else if r.effect = 2 then e.store aSlot (a.withBalance r.newBalanceA)
  else if r.effect = 3 then
    (e.store aSlot (a.withBalance r.newBalanceA)).store bSlot (b.withBalance r.newBalanceB)
  else if r.effect = 4 then e.store aSlot (a.withStatus r.newStatus)
  else e

def applyEffect (e : Core) (aSlot bSlot : Option Nat) (r : WalRecord) : Core :=
  if 1 ≤ r.effect ∧ r.effect ≤ 4 then
    { e.writeEffect aSlot bSlot r with ledger := e.ledger ++ [r.ledgerEntry] }
  else e.writeEffect aSlot bSlot r

def setAgent (e : Core) (slot : Option Nat) (agent : AgentState) : Core :=
  e.modifyRow slot fun row => { row with agent := agent }

/-- Stages the decision on a command; the agent of an account without a slot is not kept. -/
def stageDecision (e : Core) (aSlot bSlot : Option Nat) (r : WalRecord) : Core :=
  let e := if r.accepted then e.stageEffect aSlot bSlot r else e
  if aSlot.isSome then e.setAgent aSlot r.agent else e

def applyDurable (e : Core) (r : WalRecord) : Core :=
  let (e, aSlot) := e.slot r.a true
  let bSlot := e.otherSlot r.b
  let e := if r.accepted then e.applyEffect aSlot bSlot r else e
  let e := e.setAgent aSlot r.agent
  { e with
    retained := e.retained.remember e.bounds.dedupeWindow r.commandID r.result
    sequence := r.sequence }

end Core

/-! ## Batches -/

/-- The state of the loop over the commands of a batch. `batchIDs` has the place of the result
of each command that was decided. -/
structure BatchState where
  core : Core
  records : List WalRecord := []
  results : List Result := []
  batchIDs : ByteMap Nat := ∅

def BatchState.decide (s : BatchState) (c : Command) : BatchState :=
  let (e, aSlot) := s.core.slot c.account (c.kind = .create)
  let bSlot := e.otherSlot c.other
  let r := decideRecord (e.sequence + UInt64.ofNat s.records.length + 1) c
    (e.accountFor aSlot) (e.existsIn aSlot) (e.accountFor bSlot) (e.existsIn bSlot)
    (e.agentFor aSlot)
  { core := e.stageDecision aSlot bSlot r
    records := s.records ++ [r]
    results := s.results ++ [r.result]
    batchIDs := s.batchIDs.insert c.id s.results.length }

def BatchState.step (s : BatchState) (c : Command) : BatchState :=
  match s.core.retained.results[c.id]? with
  | some prior => { s with results := s.results ++ [{ prior with duplicate := true }] }
  | none =>
    match s.batchIDs[c.id]? with
    | some i =>
      { s with results := s.results ++ [{ s.results.getD i {} with duplicate := true }] }
    | none => s.decide c

/-- A failure of the operating system while a frame is appended: of the write, with the number
of bytes that reached the file, or of the synchronization. -/
inductive AppendFault where
  | write (n : Nat) (message : String)
  | sync (message : String)
  deriving DecidableEq, Repr

def appendBatch (wal : Option WalFile) (records : List WalRecord) (fault : Option AppendFault) :
    Option WalFile × Option String :=
  match wal with
  | none => (none, none)
  | some file =>
    let payload := walPayload records
    if payload.length > maxWALFrameBytes then
      (some file, some "WAL batch exceeds bounded frame size")
    else
      match fault with
      | none => (some (file.write (Frame.frame payload)), none)
      | some (.write n message) => (some (file.write ((Frame.frame payload).take n)), some message)
      | some (.sync message) => (some (file.write (Frame.frame payload)), some message)

def BatchState.commit (s : BatchState) (fault : Option AppendFault) :
    Core × Except RuntimeError (List Result) :=
  if s.records = [] then (s.core, .ok s.results)
  else
    match appendBatch s.core.wal s.records fault with
    | (wal, some message) =>
      ({ s.core with wal := wal, poisoned := some message },
        .error ⟨.durabilityWriteFailed, message⟩)
    | (wal, none) => (s.records.foldl Core.applyDurable { s.core with wal := wal }, .ok s.results)

namespace Core

/-- The accounts without a slot that the batch asks to create. -/
def newAccounts (e : Core) (commands : List Command) : Finset AccountID :=
  ((commands.filter (·.kind = .create)).map (·.account)).toFinset.filter
    fun id => e.table.slot id = none

/-- The engine with the epoch of the next batch, which marks no row. -/
def nextEpoch (e : Core) : Core :=
  if e.epoch = 0xFFFFFFFF then
    { e with table := e.table.map fun row => { row with mark := 0 }, epoch := 1 }
  else { e with epoch := e.epoch + 1 }

def checkBatch (e : Core) (commands : List Command) : Except RuntimeError Unit :=
  if commands.length > e.bounds.batchMax then
    .error ⟨.capacityExceeded,
      s!"batch has {commands.length} commands; maximum is {e.bounds.batchMax}"⟩
  else
    match forM commands validateCommand with
    | .error err => .error err
    | .ok () =>
      if e.table.size + (e.newAccounts commands).card > e.bounds.maxAccounts then
        .error ⟨.capacityExceeded, s!"account capacity {e.bounds.maxAccounts} exceeded"⟩
      else .ok ()

def decideBatch (e : Core) (commands : List Command) : BatchState :=
  commands.foldl BatchState.step { core := e.nextEpoch }

def submitBatch (e : Core) (commands : List Command) (fault : Option AppendFault) :
    Core × Except RuntimeError (List Result) :=
  if e.closed then (e, .error ⟨.engineClosed, "engine closed"⟩)
  else
    match e.poisoned with
    | some message => (e, .error ⟨.enginePoisoned, message⟩)
    | none =>
      if commands = [] then (e, .ok [])
      else
        match e.checkBatch commands with
        | .error err => (e, .error err)
        | .ok () => (e.decideBatch commands).commit fault

def submit (e : Core) (command : Command) (fault : Option AppendFault) :
    Core × Except RuntimeError Result :=
  match e.submitBatch [command] fault with
  | (e, .error err) => (e, .error err)
  | (e, .ok results) => (e, .ok (results.getD 0 {}))

def close (e : Core) : Core := { e with closed := true }

end Core

end OctetDB.Accounts
