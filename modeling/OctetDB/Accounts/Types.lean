import OctetDB.Lib.Bytes

/-!
# Account commands and decisions

The account engine decides commands on accounts with a balance and a status. A command that
begins a transfer leaves a pending transfer with its account, which a later command confirms
or cancels. Machine integers have 64 bits and wrap around.
-/

namespace OctetDB.Accounts

abbrev AccountID := UInt64

structure Account where
  id : AccountID := 0
  balance : Int64 := 0
  status : Int64 := 0
  version : UInt64 := 0
  deriving DecidableEq, Repr

def statusOpen : Int64 := 1
def statusFrozen : Int64 := 2

/-- The kind of a command; the source has a number for it. -/
inductive CommandKind where
  | create
  | deposit
  | withdraw
  | transfer
  | freeze
  | unfreeze
  | beginTransfer
  | confirm
  | cancel
  | unknown (tag : Int64) (outside : tag < 0 ∨ 8 < tag)
  deriving DecidableEq, Repr

def CommandKind.tag : CommandKind → Int64
  | .create => 0
  | .deposit => 1
  | .withdraw => 2
  | .transfer => 3
  | .freeze => 4
  | .unfreeze => 5
  | .beginTransfer => 6
  | .confirm => 7
  | .cancel => 8
  | .unknown tag _ => tag

structure Command where
  id : Bytes
  kind : CommandKind
  account : AccountID
  other : AccountID := 0
  amount : Int64 := 0
  deriving DecidableEq, Repr

structure Result where
  sequence : UInt64 := 0
  commandID : Bytes := []
  accepted : Bool := false
  reasonTag : Int64 := 0
  effectTag : Int64 := 0
  transitionCount : Int64 := 0
  duplicate : Bool := false
  deriving DecidableEq, Repr

inductive ErrorKind where
  | capacityExceeded
  | engineClosed
  | enginePoisoned
  | invalidCommand
  | durabilityWriteFailed
  | recoveryCorrupt
  | recoveryIncompatible
  deriving DecidableEq, Repr

structure RuntimeError where
  kind : ErrorKind
  message : String
  deriving DecidableEq, Repr

def validateCommand (c : Command) : Except RuntimeError Unit :=
  if c.id = [] ∨ c.account = 0 then
    .error ⟨.invalidCommand, "command ID and account are required"⟩
  else if (c.kind = .transfer ∨ c.kind = .beginTransfer ∨ c.kind = .confirm) ∧
      (c.other = 0 ∨ c.other = c.account) then
    .error ⟨.invalidCommand, "multi-account command requires a distinct destination"⟩
  else .ok ()

structure LedgerEntry where
  sequence : UInt64 := 0
  commandID : Bytes := []
  source : AccountID := 0
  target : AccountID := 0
  amount : Int64 := 0
  effectTag : Int64 := 0
  deriving DecidableEq, Repr

structure PendingTransfer where
  active : Bool := false
  target : AccountID := 0
  amount : Int64 := 0
  deriving DecidableEq, Repr

structure AgentState where
  pending : PendingTransfer := {}
  turns : Int64 := 0
  deriving DecidableEq, Repr

/-! ## Decisions -/

structure Decision where
  accepted : Bool := false
  reason : Int64 := 0
  effect : Int64 := 0
  balanceA : Int64 := 0
  balanceB : Int64 := 0
  status : Int64 := 0
  deriving DecidableEq, Repr

def applied : Int64 := 0
def awaitingConfirmation : Int64 := 1
def cancelled : Int64 := 2
def invalidAmount : Int64 := 3
def missing : Int64 := 4
def alreadyExists : Int64 := 5
def frozen : Int64 := 6
def insufficient : Int64 := 7
def invalidWorkflow : Int64 := 8

/-- A decision that changes neither balance nor status. -/
def unchanged (a b : Account) (accepted : Bool) (reason : Int64) : Decision :=
  { accepted := accepted, reason := reason, balanceA := a.balance, balanceB := b.balance
    status := a.status }

def reject (a b : Account) (reason : Int64) : Decision := unchanged a b false reason

/-- The decision on a transfer, also of one that was begun before. -/
def decideTransfer (c : Command) (a : Account) (aok : Bool) (b : Account) (bok : Bool) : Decision :=
  if c.amount ≤ 0 then reject a b invalidAmount
  else if !aok || !bok then reject a b missing
  else if a.status = statusFrozen then reject a b frozen
  else if a.balance < c.amount then reject a b insufficient
  else
    { accepted := true, reason := applied, effect := 3, balanceA := a.balance - c.amount
      balanceB := b.balance + c.amount, status := a.status }

def decideGo (c : Command) (a : Account) (aok : Bool) (b : Account) (bok : Bool)
    (pending : PendingTransfer) : Decision :=
  match c.kind with
  | .create =>
    if aok then reject a b alreadyExists
    else if c.amount < 0 then reject a b invalidAmount
    else
      { accepted := true, reason := applied, effect := 1, balanceA := c.amount
        balanceB := b.balance, status := statusOpen }
  | .deposit =>
    if c.amount ≤ 0 then reject a b invalidAmount
    else if !aok then reject a b missing
    else
      { accepted := true, reason := applied, effect := 2, balanceA := a.balance + c.amount
        balanceB := b.balance, status := a.status }
  | .withdraw =>
    if c.amount ≤ 0 then reject a b invalidAmount
    else if !aok then reject a b missing
    else if a.status = statusFrozen then reject a b frozen
    else if a.balance < c.amount then reject a b insufficient
    else
      { accepted := true, reason := applied, effect := 2, balanceA := a.balance - c.amount
        balanceB := b.balance, status := a.status }
  | .transfer => decideTransfer c a aok b bok
  | .confirm =>
    if !pending.active || pending.target ≠ c.other || pending.amount ≠ c.amount then
      reject a b invalidWorkflow
    else decideTransfer c a aok b bok
  | .freeze =>
    if !aok then reject a b missing
    else
      { accepted := true, reason := applied, effect := 4, balanceA := a.balance
        balanceB := b.balance, status := statusFrozen }
  | .unfreeze =>
    if !aok then reject a b missing
    else
      { accepted := true, reason := applied, effect := 4, balanceA := a.balance
        balanceB := b.balance, status := statusOpen }
  | .beginTransfer =>
    if c.amount ≤ 0 then reject a b invalidAmount
    else unchanged a b true awaitingConfirmation
  | .cancel => unchanged a b true cancelled
  | .unknown _ _ => reject a b invalidWorkflow

/-- What a decision can be. Every decision but the kept ones is accepted. -/
inductive Decided (c : Command) (a : Account) (aok : Bool) (b : Account) (bok : Bool) :
    Decision → Prop
  | kept (accepted : Bool) (reason : Int64)
    (passive : accepted = true → c.kind = .beginTransfer ∨ c.kind = .cancel) :
    Decided c a aok b bok (unchanged a b accepted reason)
  | created (kind : c.kind = .create) (absent : aok = false) (amount : 0 ≤ c.amount) :
    Decided c a aok b bok ⟨true, applied, 1, c.amount, b.balance, statusOpen⟩
  | deposited (kind : c.kind = .deposit) (known : aok = true) (amount : 0 < c.amount) :
    Decided c a aok b bok ⟨true, applied, 2, a.balance + c.amount, b.balance, a.status⟩
  | withdrew (kind : c.kind = .withdraw) (known : aok = true) (amount : 0 < c.amount)
    (funded : c.amount ≤ a.balance) :
    Decided c a aok b bok ⟨true, applied, 2, a.balance - c.amount, b.balance, a.status⟩
  | transferred (kind : c.kind = .transfer ∨ c.kind = .confirm) (known : aok = true)
    (peer : bok = true) (amount : 0 < c.amount) (funded : c.amount ≤ a.balance) :
    Decided c a aok b bok
      ⟨true, applied, 3, a.balance - c.amount, b.balance + c.amount, a.status⟩
  | marked (kind : c.kind = .freeze ∨ c.kind = .unfreeze) (known : aok = true) (status : Int64) :
    Decided c a aok b bok ⟨true, applied, 4, a.balance, b.balance, status⟩

theorem decideTransfer_spec {c : Command} (kind : c.kind = .transfer ∨ c.kind = .confirm)
    (a : Account) (aok : Bool) (b : Account) (bok : Bool) :
    Decided c a aok b bok (decideTransfer c a aok b bok) := by
  unfold decideTransfer
  split
  · exact .kept false _ nofun
  split
  · exact .kept false _ nofun
  split
  · exact .kept false _ nofun
  split
  · exact .kept false _ nofun
  rename_i positive known _ funded
  rw [Bool.or_eq_true, not_or, Bool.not_eq_true', Bool.not_eq_true'] at known
  exact .transferred kind (by simpa using known.1) (by simpa using known.2) (by grind) (by grind)

theorem decideGo_spec (c : Command) (a : Account) (aok : Bool) (b : Account) (bok : Bool)
    (pending : PendingTransfer) : Decided c a aok b bok (decideGo c a aok b bok pending) := by
  unfold decideGo
  split <;> rename_i kind
  · split
    · exact .kept false _ nofun
    split
    · exact .kept false _ nofun
    exact .created kind (by simp_all) (by grind)
  · split
    · exact .kept false _ nofun
    split
    · exact .kept false _ nofun
    exact .deposited kind (by simp_all) (by grind)
  · split
    · exact .kept false _ nofun
    split
    · exact .kept false _ nofun
    split
    · exact .kept false _ nofun
    split
    · exact .kept false _ nofun
    exact .withdrew kind (by simp_all) (by grind) (by grind)
  · exact decideTransfer_spec (.inl kind) a aok b bok
  · split
    · exact .kept false _ nofun
    exact decideTransfer_spec (.inr kind) a aok b bok
  · split
    · exact .kept false _ nofun
    exact .marked (.inl kind) (by simp_all) _
  · split
    · exact .kept false _ nofun
    exact .marked (.inr kind) (by simp_all) _
  · split
    · exact .kept false _ nofun
    exact .kept true _ fun _ => .inl kind
  · exact .kept true _ fun _ => .inr kind
  · exact .kept false _ nofun

/-! ## Records -/

/-- The durable form of a decision. -/
structure WalRecord where
  sequence : UInt64 := 0
  commandID : Bytes := []
  kind : Int64 := 0
  a : AccountID := 0
  b : AccountID := 0
  amount : Int64 := 0
  accepted : Bool := false
  reason : Int64 := 0
  effect : Int64 := 0
  turns : Int64 := 0
  newBalanceA : Int64 := 0
  newBalanceB : Int64 := 0
  newStatus : Int64 := 0
  expectedA : UInt64 := 0
  expectedB : UInt64 := 0
  pendingActive : Bool := false
  pendingTarget : AccountID := 0
  pendingAmount : Int64 := 0
  deriving DecidableEq, Repr

/-- The pending transfer of the account after a decision. -/
def PendingTransfer.next (pending : PendingTransfer) (c : Command) (d : Decision) :
    PendingTransfer :=
  if c.kind = .beginTransfer ∧ d.accepted then ⟨true, c.other, c.amount⟩
  else if c.kind = .confirm ∨ c.kind = .cancel then {}
  else pending

/-- The record of the decision on a command, made on the accounts it reads and the state of
its agent. -/
def decideRecord (sequence : UInt64) (c : Command) (a : Account) (aok : Bool) (b : Account)
    (bok : Bool) (state : AgentState) : WalRecord :=
  let d := decideGo c a aok b bok state.pending
  let next := state.pending.next c d
  { sequence := sequence, commandID := c.id, kind := c.kind.tag, a := c.account, b := c.other
    amount := c.amount, accepted := d.accepted, reason := d.reason, effect := d.effect
    turns := state.turns + 1, newBalanceA := d.balanceA, newBalanceB := d.balanceB
    newStatus := d.status, expectedA := a.version, expectedB := b.version
    pendingActive := next.active, pendingTarget := next.target, pendingAmount := next.amount }

def WalRecord.result (r : WalRecord) : Result where
  sequence := r.sequence
  commandID := r.commandID
  accepted := r.accepted
  reasonTag := r.reason
  effectTag := r.effect
  transitionCount := r.turns

def WalRecord.agent (r : WalRecord) : AgentState where
  pending := ⟨r.pendingActive, r.pendingTarget, r.pendingAmount⟩
  turns := r.turns

def WalRecord.ledgerEntry (r : WalRecord) : LedgerEntry where
  sequence := r.sequence
  commandID := r.commandID
  source := r.a
  target := r.b
  amount := r.amount
  effectTag := r.effect

end OctetDB.Accounts
