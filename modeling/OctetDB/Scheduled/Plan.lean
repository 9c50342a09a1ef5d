import Mathlib

/-!
# Commands of the scheduler

The scheduler knows four kinds of commands from its execution plan: two reads, which can be
batched with reads of the same kind, and two writes. A write owns one conflict token while it is
executed: the customer of an order, or the product of a change of the inventory. A read owns none.
-/

namespace OctetDB.Scheduled

/-- The kind of a command; the plan has only the first four. -/
inductive Kind where
  | pointRead
  | rangeRead
  | orderWrite
  | inventoryWrite
  | other (code : UInt8) (outside : 3 < code)
  deriving DecidableEq, Repr

/-- The kinds up to the range read. -/
def Kind.isRead : Kind → Bool
  | pointRead => true
  | rangeRead => true
  | _ => false

structure Operation where
  sequence : Int64
  kind : Kind
  customerID : Int64 := 0
  productID : Int64 := 0
  deriving DecidableEq, Repr

structure CommandDescriptor where
  priority : Nat := 0
  conflict : Nat := 0
  transaction : Nat := 0
  deriving DecidableEq, Repr

/-- The commands of the execution plan. -/
def command : Kind → Option CommandDescriptor
  | .pointRead => some { priority := 0, conflict := 0, transaction := 0 }
  | .rangeRead => some { priority := 0, conflict := 1, transaction := 0 }
  | .orderWrite => some { priority := 1, conflict := 1, transaction := 1 }
  | .inventoryWrite => some { priority := 1, conflict := 2, transaction := 2 }
  | .other _ _ => none

/-- The kinds of the execution plan that are batched together. -/
def compatible : Kind → Kind → Bool
  | .pointRead, .pointRead => true
  | .rangeRead, .rangeRead => true
  | _, _ => false

inductive ConflictDomain where
  | none
  | orders
  | inventory
  deriving DecidableEq, Repr

structure ConflictToken where
  domain : ConflictDomain := .none
  key : Int64 := 0
  deriving DecidableEq, Repr

def ConflictToken.valid (t : ConflictToken) : Bool := t.domain != .none

/-- The token of an operation, and whether it is one that the operation owns. -/
def conflictToken (op : Operation) : ConflictToken × Bool :=
  match command op.kind with
  | none => ({}, false)
  | some d =>
    if d.transaction = 0 then ({}, false)
    else if d.conflict = 1 then
      ({ domain := .orders, key := op.customerID }, op.kind = .orderWrite)
    else if d.conflict = 2 then
      ({ domain := .inventory, key := op.productID }, op.kind = .inventoryWrite)
    else ({}, false)

/-- What is batched with a command has no token. -/
theorem token_of_compatible {k : Kind} {op : Operation} (same : compatible k op.kind = true) :
    (conflictToken op).1.valid = false := by
  obtain ⟨sequence, kind, customer, product⟩ := op
  cases k <;> cases kind <;> first | rfl | cases same

/-! ## Outcomes of the admission policy -/

inductive SchedulerOutcome where
  | reject
  | wait
  | compatible
  | dispatch
  deriving DecidableEq, Repr

/-- The decision on a request, by the number of admitted requests and the batch under
construction. -/
def policyDecision (used capacity : Int) (requestClass batchClass : Kind)
    (batchCount maxBatch : Nat) : SchedulerOutcome :=
  if used ≥ capacity then .reject
  else if batchCount = 0 then .wait
  else if ¬ requestClass.isRead then .wait
  else if requestClass ≠ batchClass then .wait
  else if batchCount + 1 ≥ maxBatch then .dispatch
  else .compatible

/-! ## Strategies -/

inductive ControlStrategy where
  | none
  | centralized
  | parity
  | priority
  | plantCharacterization
  | observerShadow
  | reactive
  | utility
  | agentic
  deriving DecidableEq, Repr

structure Config where
  strategy : ControlStrategy
  capacity : Nat
  maxBatch : Nat
  workers : Nat
  batchWait : Int
  plainBatch : Bool := false
  capacity_pos : 0 < capacity
  maxBatch_pos : 0 < maxBatch
  workers_pos : 0 < workers

/-- The configuration that a scheduler is made with: counts below one are taken for one. -/
def newScheduler (strategy : ControlStrategy) (capacity maxBatch workers batchWait : Int)
    (plainBatch : Bool) : Config where
  strategy := strategy
  capacity := if capacity < 1 then 1 else capacity.toNat
  maxBatch := if maxBatch < 1 then 1 else maxBatch.toNat
  workers := if workers < 1 then 1 else workers.toNat
  batchWait := batchWait
  plainBatch := plainBatch
  capacity_pos := by split <;> omega
  maxBatch_pos := by split <;> omega
  workers_pos := by split <;> omega

/-- A request; `id` tells it from all others. -/
structure Request where
  id : Nat
  op : Operation
  queuedAt : Int
  token : ConflictToken := {}
  waitingSince : Option Int := none
  conflictWait : Int := 0
  deriving DecidableEq, Repr

structure Result where
  err : Option String
  queueTime : Int := 0
  service : Int := 0
  conflictWait : Int := 0
  batchSize : Nat := 0
  priority : Nat := 0
  deriving DecidableEq, Repr

structure Batch where
  requests : List Request
  dispatched : Int := 0
  deriving DecidableEq, Repr

structure Completion where
  job : Batch
  err : Option String
  started : Int
  finished : Int
  deriving DecidableEq, Repr

end OctetDB.Scheduled
