import OctetDB.Keyed.Codec
import OctetDB.Lib.Frame

/-!
# Group commit

The coordinator takes a group of queued requests, decides and stages them one after the
other in memory, appends a frame for every decision, and synchronizes the log once for the
whole group. A failed append or Sync poisons the handle and takes back the answers of all
requests whose frames were staged in the group.

The environment chooses where storage fails: `Faults` names the failing appends and whether
the shared Sync fails.
-/

namespace OctetDB

/-- A queued request. `cancelled` is the error of its context if that is done when the
request's turn comes. -/
structure KeyedCommitRequest where
  cancelled : Option String := none
  commandID : Bytes
  mutation : Option MutationFunc

structure KeyedCommitResult where
  decision : KeyedDecision := {}
  err : Option Failure := none
  panicValue : Option String := none
  deriving DecidableEq, Repr

/-! ## Appending a frame -/

/-- How an append fails: before anything is written, or after a part of the frame. -/
inductive AppendFault where
  | before (message : String)
  | write (written : Nat) (message : String)
  deriving DecidableEq, Repr

/-- The storage failures of one group: of the append of each request, and of the Sync. -/
structure Faults where
  append : Nat → Option AppendFault := fun _ => none
  sync : Option String := none

def storageError (op message : String) : Error := ⟨.storage, op, message⟩

/-- The log after an append, and its error. -/
def appendKeyedFrame (wal : Bytes) (record : KeyedWALRecord) (fault : Option AppendFault) :
    Bytes × Option Error :=
  match fault with
  | some (.before message) => (wal, some (storageError "submit_keyed" message))
  | fault =>
    let payload := record.marshal
    if payload.length > maxKeyedFrameBytes then
      (wal, some ⟨.capacity, "submit_keyed", "encoded command frame is too large"⟩)
    else
      match fault with
      | some (.write written message) =>
        (wal ++ (Frame.frame payload).take written, some (storageError "submit_keyed" message))
      | _ => (wal ++ Frame.frame payload, none)

/-! ## Processing a group -/

def poisonedError (op : String) : Failure :=
  .product ⟨.poisoned, op,
    "an earlier durability failure made the database unsafe; close and reopen the database"⟩

def KeyedDB.poison (db : KeyedDB) : KeyedDB := { db with poisoned := true }

/-- The state of the loop over a group. `staged` maps a command ID to the position in the
group that decided it and is absent in a group of one; `applied` are the records of the
frames appended so far. -/
structure GroupState where
  db : KeyedDB
  wal : Bytes
  results : List KeyedCommitResult := []
  durable : List Bool := []
  staged : Option (ByteMap Nat) := none
  applied : List KeyedWALRecord := []
  storageErr : Option Error := none

def GroupState.answer (s : GroupState) (result : KeyedCommitResult) (durable : Bool) :
    GroupState :=
  { s with results := s.results ++ [result], durable := s.durable ++ [durable] }

/-- The decision an earlier request of the group made for a command ID that is retained. -/
def GroupState.stagedDecision (s : GroupState) (id : Bytes) : Option KeyedDecision := do
  let original ← s.staged.bind (·[id]?)
  if id ∈ s.db.dedupe then (s.results[original]?).map (·.decision) else none

def GroupState.fail (s : GroupState) (wal : Bytes) (err : Error) : GroupState :=
  { s with wal := wal, db := s.db.poison, storageErr := some err }

def GroupState.accept (s : GroupState) (wal : Bytes) (record : KeyedWALRecord) : GroupState :=
  { s with
    wal := wal
    db := applyKeyed s.db record
    staged := s.staged.map fun staged => staged.insert record.commandID s.results.length
    applied := s.applied ++ [record] }

/-- Appends and applies the record a request was decided with. -/
def GroupState.stage (s : GroupState) (record : KeyedWALRecord) (fault : Option AppendFault) :
    GroupState :=
  match appendKeyedFrame s.wal record fault with
  | (wal, some err) =>
    (s.fail wal err).answer { decision := record.decision, err := some (.product err) } false
  | (wal, none) => (s.accept wal record).answer { decision := record.decision } true

def groupStep (faults : Faults) (s : GroupState) (request : KeyedCommitRequest) : GroupState :=
  if s.db.poisoned then s.answer { err := some (poisonedError "submit_keyed") } false
  else
    match request.cancelled with
    | some message => s.answer { err := some (.context message) } false
    | none =>
      match s.stagedDecision request.commandID with
      | some decision => s.answer { decision := decision.asDuplicate } true
      | none =>
        match executeKeyed s.db request.commandID request.mutation with
        | .refused err => s.answer { err := some err } false
        | .duplicate decision => s.answer { decision := decision } false
        | .panicked value => s.answer { panicValue := some value } false
        | .decided record => s.stage record (faults.append s.results.length)

/-- What a group leaves behind. `synced` are the records of its frames if its Sync
succeeded. -/
structure GroupOutcome where
  db : KeyedDB
  wal : Bytes
  results : List KeyedCommitResult
  applied : List KeyedWALRecord
  synced : List KeyedWALRecord

def GroupState.start (db : KeyedDB) (wal : Bytes) (size : Nat) : GroupState :=
  { db := db, wal := wal, staged := if size > 1 then some ∅ else none }

/-- The shared Sync and the final answers. -/
def GroupState.finish (s : GroupState) (sync : Option String) : GroupOutcome :=
  let storageErr :=
    if s.applied ≠ [] ∧ s.storageErr = none then sync.map (storageError "submit_keyed")
    else s.storageErr
  match storageErr with
  | some err =>
    { db := s.db.poison
      wal := s.wal
      results := List.zipWith (fun result durable =>
        if durable then { err := some (.product err) } else result) s.results s.durable
      applied := s.applied
      synced := [] }
  | none =>
    { db := s.db, wal := s.wal, results := s.results, applied := s.applied, synced := s.applied }

def processCommitGroup (faults : Faults) (db : KeyedDB) (wal : Bytes)
    (group : List KeyedCommitRequest) : GroupOutcome :=
  (group.foldl (groupStep faults) (.start db wal group.length)).finish faults.sync

/-! ## What one request does -/

/-- The effects a request can have on the loop over its group. -/
inductive GroupStep (faults : Faults) (s : GroupState) (request : KeyedCommitRequest) :
    GroupState → Prop where
  | poisoned (dead : s.db.poisoned = true) :
      GroupStep faults s request (s.answer { err := some (poisonedError "submit_keyed") } false)
  | cancelled {message : String} (live : s.db.poisoned = false)
      (done : request.cancelled = some message) :
      GroupStep faults s request (s.answer { err := some (.context message) } false)
  | repeated {decision : KeyedDecision} (live : s.db.poisoned = false)
      (staged : s.stagedDecision request.commandID = some decision) :
      GroupStep faults s request (s.answer { decision := decision.asDuplicate } true)
  | refused {err : Failure} (live : s.db.poisoned = false)
      (run : executeKeyed s.db request.commandID request.mutation = .refused err) :
      GroupStep faults s request (s.answer { err := some err } false)
  | duplicate {decision : KeyedDecision} (live : s.db.poisoned = false)
      (unstaged : s.stagedDecision request.commandID = none)
      (run : executeKeyed s.db request.commandID request.mutation = .duplicate decision) :
      GroupStep faults s request (s.answer { decision := decision } false)
  | panicked {value : String} (live : s.db.poisoned = false)
      (run : executeKeyed s.db request.commandID request.mutation = .panicked value) :
      GroupStep faults s request (s.answer { panicValue := some value } false)
  | failed {record : KeyedWALRecord} {wal : Bytes} {err : Error} (live : s.db.poisoned = false)
      (run : executeKeyed s.db request.commandID request.mutation = .decided record)
      (append : appendKeyedFrame s.wal record (faults.append s.results.length) = (wal, some err)) :
      GroupStep faults s request ((s.fail wal err).answer
        { decision := record.decision, err := some (.product err) } false)
  | accepted {record : KeyedWALRecord} {wal : Bytes} (live : s.db.poisoned = false)
      (run : executeKeyed s.db request.commandID request.mutation = .decided record)
      (append : appendKeyedFrame s.wal record (faults.append s.results.length) = (wal, none)) :
      GroupStep faults s request
        ((s.accept wal record).answer { decision := record.decision } true)

theorem groupStep_spec (faults : Faults) (s : GroupState) (request : KeyedCommitRequest) :
    GroupStep faults s request (groupStep faults s request) := by
  unfold groupStep
  by_cases dead : s.db.poisoned = true
  · rw [if_pos dead]; exact .poisoned dead
  rw [if_neg dead]
  have live : s.db.poisoned = false := by simpa using dead
  cases done : request.cancelled with
  | some message => exact .cancelled live done
  | none =>
    cases staged : s.stagedDecision request.commandID with
    | some decision => exact .repeated live staged
    | none =>
      cases run : executeKeyed s.db request.commandID request.mutation with
      | refused err => exact .refused live run
      | duplicate decision => exact .duplicate live staged run
      | panicked value => exact .panicked live run
      | decided record =>
        simp only [GroupState.stage]
        rcases append : appendKeyedFrame s.wal record (faults.append s.results.length) with
          ⟨wal, _ | err⟩
        · exact .accepted live run append
        · exact .failed live run append

/-- A property of the store, the log and the records applied so far that the appends of a group
and its failures keep holds when the group is through. -/
theorem processCommitGroup_induction {faults : Faults} {db : KeyedDB} {wal : Bytes}
    {requests : List KeyedCommitRequest} {P : KeyedDB → Bytes → List KeyedWALRecord → Prop}
    (start : P db wal [])
    (accept : ∀ db wal applied request record fault wal', request ∈ requests → P db wal applied →
      db.poisoned = false → executeKeyed db request.commandID request.mutation = .decided record →
      appendKeyedFrame wal record fault = (wal', none) →
      P (applyKeyed db record) wal' (applied ++ [record]))
    (fail : ∀ db wal applied request record fault wal' err, request ∈ requests →
      P db wal applied → db.poisoned = false →
      executeKeyed db request.commandID request.mutation = .decided record →
      appendKeyedFrame wal record fault = (wal', some err) → P db.poison wal' applied)
    (unsynced : ∀ db wal applied, P db wal applied → P db.poison wal applied) :
    P (processCommitGroup faults db wal requests).db
      (processCommitGroup faults db wal requests).wal
      (processCommitGroup faults db wal requests).applied := by
  have loop : ∀ rest : List KeyedCommitRequest,
      (∀ request ∈ rest, request ∈ requests) → ∀ s : GroupState,
      P s.db s.wal s.applied → P (rest.foldl (groupStep faults) s).db
        (rest.foldl (groupStep faults) s).wal (rest.foldl (groupStep faults) s).applied := by
    intro rest
    induction rest with
    | nil => exact fun _ s h => h
    | cons request rest ih =>
      intro mem s h
      refine ih (fun r hr => mem r (by simp [hr])) _ ?_
      have effect := groupStep_spec faults s request
      generalize groupStep faults s request = t at effect ⊢
      cases effect with
      | accepted live run append =>
        exact accept _ _ _ _ _ _ _ (mem request (by simp)) h live run append
      | failed live run append =>
        exact fail _ _ _ _ _ _ _ _ (mem request (by simp)) h live run append
      | _ => exact h
  have done := loop requests (fun _ mem => mem) (.start db wal requests.length) start
  simp only [processCommitGroup, GroupState.finish]
  split
  · exact unsynced _ _ _ done
  · exact done

/-! ## The staged index -/

/-- The position that is staged for a retained ID holds the answer with its decision. -/
def GroupState.Tracks (s : GroupState) : Prop :=
  ∀ (id : Bytes) (i : Nat) (record : KeyedWALRecord), s.staged.bind (·[id]?) = some i →
    s.db.dedupe[id]? = some record → (s.results[i]?).map (·.decision) = some record.decision

namespace GroupState.Tracks

variable {s : GroupState}

theorem start (db : KeyedDB) (wal : Bytes) (size : Nat) :
    (GroupState.start db wal size).Tracks := by
  intro id i record known
  simp only [GroupState.start] at known
  split at known <;> simp at known

theorem answer (h : s.Tracks) (result : KeyedCommitResult) (durable : Bool) :
    (s.answer result durable).Tracks := by
  intro id i record known retained
  have old := h id i record known retained
  obtain ⟨before, get, -⟩ := Option.map_eq_some_iff.mp old
  have bound := (List.getElem?_eq_some_iff.mp get).1
  simpa [GroupState.answer, List.getElem?_append_left bound] using old

theorem accept (h : s.Tracks) (wal : Bytes) (record : KeyedWALRecord) :
    ((s.accept wal record).answer { decision := record.decision } true).Tracks := by
  intro id i kept known retained
  simp only [GroupState.answer, GroupState.accept] at known retained ⊢
  cases staged : s.staged with
  | none => simp [staged] at known
  | some index =>
    simp only [staged, Option.map_some, Option.bind_some, Std.ExtTreeMap.getElem?_insert] at known
    rcases Window.getElem?_retain retained with ⟨rfl, rfl⟩ | ⟨other, old⟩
    · obtain rfl : s.results.length = i := by simpa using known
      simp
    · have before := h id i kept (by simpa [staged, Ne.symm other] using known) old
      obtain ⟨result, get, -⟩ := Option.map_eq_some_iff.mp before
      have bound := (List.getElem?_eq_some_iff.mp get).1
      simpa [List.getElem?_append_left bound] using before

theorem step (h : s.Tracks) (faults : Faults) (request : KeyedCommitRequest) :
    (groupStep faults s request).Tracks := by
  have effect := groupStep_spec faults s request
  generalize groupStep faults s request = t at effect ⊢
  cases effect with
  | @accepted record wal live run append => exact h.accept wal record
  | @failed record wal err live run append => exact @answer (s.fail wal err) h _ _
  | _ => exact h.answer _ _

theorem run (h : s.Tracks) (faults : Faults) (requests : List KeyedCommitRequest) :
    (requests.foldl (groupStep faults) s).Tracks := by
  induction requests generalizing s with
  | nil => exact h
  | cons request requests ih => exact ih (h.step faults request)

end GroupState.Tracks

end OctetDB
