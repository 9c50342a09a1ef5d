import OctetDB.Accounts.Snapshot
import OctetDB.Research.Segments

/-!
# The concurrent engine

The engine has a goroutine for every account, its agent, and one more, the commit authority. A
command goes through the mailbox of its account to the agent. The agent takes the tokens of the
command in order, decides on what the store shows, sends the decision to the authority and waits
for the response; then it gives the tokens back and answers. The authority collects decisions into
groups, appends the records of a group to the log, applies them to the store one by one and
responds.

A step is what one goroutine does between two points where another one can see it. Commands are
decided by `decideGo`; the log is anything that appends groups of records and can be closed. A
caller that gives up changes nothing, since its channel takes the answer.
-/

namespace OctetDB.Research

open Accounts

/-! ## Tokens -/

/-- The tokens of a command, in order. There is one kind of tokens, one for every account. -/
def tokensFor (c : Command) : List AccountID :=
  let tokens := if c.kind = .transfer ∨ c.kind = .confirm then [c.account, c.other] else [c.account]
  tokens.insertionSort (· ≤ ·)

/-! ## Configuration and parts -/

structure EngineConfig where
  mailboxCapacity : Nat
  durability : DurabilityMode
  groupMax : Nat
  groupWait : Int
  snapshotEvery : UInt64
  dedupeWindow : Nat
  mailboxCapacity_pos : 0 < mailboxCapacity
  groupMax_pos : 0 < groupMax

/-- The configuration that an engine is opened with. -/
def openM1Engine (mailboxCapacity : Int) (durability : DurabilityMode) (groupMax groupWait : Int)
    (snapshotEvery : UInt64) (dedupeWindow : Int) : EngineConfig where
  mailboxCapacity := if mailboxCapacity ≤ 0 then 64 else mailboxCapacity.toNat
  durability := durability
  groupMax := if groupMax ≤ 0 then 16 else groupMax.toNat
  groupWait := if groupWait < 0 then 200000 else groupWait
  snapshotEvery := snapshotEvery
  dedupeWindow := if dedupeWindow ≤ 0 then 100000 else dedupeWindow.toNat
  mailboxCapacity_pos := by split <;> omega
  groupMax_pos := by split <;> omega

namespace EngineConfig

def groupLimit (cfg : EngineConfig) : Nat :=
  if cfg.durability = .batchSync then cfg.groupMax else 1

def authorityCapacity (cfg : EngineConfig) : Nat := cfg.groupMax * 2 + 16

end EngineConfig

/-- What the authority asks of the log. -/
structure GroupLog (σ : Type) where
  appendGroup : σ → List LogRecord → Except String σ
  close : σ → σ
  snapshotAtFrontier : σ → σ

structure Dedupe where
  results : ByteMap Result := ∅
  order : List Bytes := []
  head : Nat := 0

def Dedupe.rememberResult (window : Nat) (d : Dedupe) (id : Bytes) (result : Result) : Dedupe :=
  let results := d.results.insert id result
  let order := d.order ++ [id]
  let (results, head) :=
    if order.length - d.head > window then (results.erase (order.getD d.head []), d.head + 1)
    else (results, d.head)
  if head ≥ window ∧ head * 2 ≥ order.length then
    { results := results, order := order.drop head, head := 0 }
  else { results := results, order := order, head := head }

inductive SubmitError where
  | invalid (err : RuntimeError)
  | closed
  | mailboxFull
  | durability (message : String)
  deriving DecidableEq, Repr

def SubmitError.message : SubmitError → String
  | invalid err => err.message
  | closed => "engine closed"
  | mailboxFull => "bounded agent mailbox is full"
  | durability message => message

abbrev Outcome := Except SubmitError Result

/-- A decision on its way to the authority. -/
structure Commit where
  command : Command
  record : LogRecord
  next : AgentState

def Commit.account (m : Commit) : AccountID := m.command.account

/-- The checkpoint of an agent. -/
def marshalCheckpoint (s : AgentState) : Bytes :=
  (Json.obj [(ascii "pending", Json.obj [(ascii "active", .bool s.pending.active),
    (ascii "target", .num (Json.decimal s.pending.target.toNat)),
    (ascii "amount", encodeInt s.pending.amount)]), (ascii "turns", encodeInt s.turns)]).render

/-- The decision of an agent on what the store shows. -/
def processGoM1 (store : Store) (state : AgentState) (c : Command) : Commit :=
  let v := store.view c.account c.other
  let d := decideGo c v.a v.aok v.b v.bok state.pending
  let next : AgentState := { pending := state.pending.next c d, turns := state.turns + 1 }
  { command := c
    record := decisionRecord
      { version := Int64.ofNat m1WALVersion, schemaID := m1SchemaID, programID := m1GoProgramID }
      c v d next.turns (marshalCheckpoint next)
    next := next }

def Commit.number (m : Commit) (sequence : UInt64) : Commit :=
  { m with record := { m.record with
      sequence := sequence, result := { m.record.result with sequence := sequence } } }

inductive Control where
  | close
  | snapshot
  deriving DecidableEq, Repr

inductive Message where
  | commit (m : Commit)
  | control (k : Control)

/-- Where an agent is. -/
inductive Agent where
  | idle
  | acquiring (c : Command) (held wanted : List AccountID)
  | sending (m : Commit)
  | waiting (c : Command)
  /-- It has the response, and gives the tokens back in the reverse order. -/
  | releasing (c : Command) (outcome : Outcome) (held : List AccountID)

/-- Where the authority is. Messages that are not decisions are deferred until the group is done. -/
inductive Authority where
  | receiving
  | collecting (group : List Commit) (deferred : List Control)
  /-- It looks for commands that it has seen before, and numbers the others. -/
  | sorting (rest unique : List Commit) (repeats : List (Commit × Commit)) (deferred : List Control)
  | applying (rest unique : List Commit) (repeats : List (Commit × Commit))
      (deferred : List Control)
  | responding (replies : List (Commit × Outcome)) (deferred : List Control)
  | controlling (deferred : List Control)
  | stopped

/-- Where the call of `Close` is. -/
inductive Closing where
  | open
  | posting
  | awaiting
  | answered
  | returned
  deriving DecidableEq, Repr

structure Engine (σ : Type) where
  closed : Bool := false
  closing : Closing := .open
  /-- All commands that have passed the first checks of `Submit`. -/
  submitted : List Command := []
  /-- Those that are not yet put into their mailbox. -/
  entering : List Command := []
  mailbox : AccountID → List Command := fun _ => []
  agent : AccountID → Agent := fun _ => .idle
  locks : AccountID → Option AccountID := fun _ => none
  /-- The response that the authority has sent to an agent. -/
  response : AccountID → Option Outcome := fun _ => none
  channel : List Message := []
  authority : Authority := .receiving
  store : Store := {}
  state : AccountID → AgentState := fun _ => {}
  dedupe : Dedupe := {}
  sequence : UInt64 := 0
  poisoned : Option String := none
  log : σ
  /-- The records that the log has taken. -/
  appended : List LogRecord := []
  /-- The commands that have been applied. -/
  committed : List Command := []
  /-- What `Submit` has been answered by an agent, and what it has refused. -/
  answered : List (Command × Outcome) := []
  refused : List (Command × SubmitError) := []

/-- The steps that conditions are about. -/
inductive Event where
  | refuse
  | enter (c : Command)
  | snapshot
  | close
  | fail
  | internal

namespace Engine

variable {σ : Type}

/-- The authority handles a message that is not a decision. -/
def handle (log : GroupLog σ) (e : Engine σ) (k : Control) : Engine σ :=
  { e with
    log :=
      match k with
      | .close => log.close e.log
      | .snapshot => if e.poisoned.isSome then e.log else log.snapshotAtFrontier e.log
    closing := if k = .close then .answered else e.closing }

def respond (e : Engine σ) (m : Commit) (outcome : Outcome) : Engine σ :=
  { e with response := Function.update e.response m.account (some outcome) }

def apply (cfg : EngineConfig) (e : Engine σ) (m : Commit) : Engine σ :=
  { e with
    store := e.store.apply m.record
    state := Function.update e.state m.account m.next
    dedupe := e.dedupe.rememberResult cfg.dedupeWindow m.record.commandID m.record.result
    sequence := m.record.sequence
    committed := e.committed ++ [m.command] }

/-- The replies to a group whose records have been applied. -/
def replies (unique : List Commit) (repeats : List (Commit × Commit)) : List (Commit × Outcome) :=
  unique.map (fun m => (m, .ok m.record.result)) ++
    repeats.map fun (m, original) => (m, .ok { original.record.result with duplicate := true })

def failures (err : String) (group : List Commit) : List (Commit × Outcome) :=
  group.map fun m => (m, .error (.durability err))

/-- A group that is done can bring a snapshot with it. -/
def finish (cfg : EngineConfig) (log : GroupLog σ) (e : Engine σ) : Engine σ :=
  { e with
    log :=
      if e.poisoned.isNone ∧ 0 < cfg.snapshotEvery ∧ e.sequence % cfg.snapshotEvery = 0 then
        log.snapshotAtFrontier e.log
      else e.log }

/-- Puts an agent into another place. -/
def goTo (e : Engine σ) (a : AccountID) (agent : Agent) : Engine σ :=
  { e with agent := Function.update e.agent a agent }

/-- The steps of callers, of agents, of the authority and of `Close`. -/
inductive Step (cfg : EngineConfig) (log : GroupLog σ) : Engine σ → Event → Engine σ → Prop
  -- Submit
  | invalid {e : Engine σ} {c : Command} {err : RuntimeError}
      (bad : validateCommand c = .error err) :
      Step cfg log e .refuse { e with refused := e.refused ++ [(c, .invalid err)] }
  | shut {e : Engine σ} {c : Command} (valid : c.Valid) (closed : e.closed = true) :
      Step cfg log e .refuse { e with refused := e.refused ++ [(c, .closed)] }
  | enter {e : Engine σ} (c : Command) (valid : c.Valid) (opened : e.closed = false) :
      Step cfg log e (.enter c)
        { e with submitted := e.submitted ++ [c], entering := e.entering ++ [c] }
  | enqueue {e : Engine σ} {c : Command} {before behind : List Command}
      (entering : e.entering = before ++ c :: behind)
      (room : (e.mailbox c.account).length < cfg.mailboxCapacity) :
      Step cfg log e .internal
        { e with
          entering := before ++ behind
          mailbox := Function.update e.mailbox c.account (e.mailbox c.account ++ [c]) }
  | full {e : Engine σ} {c : Command} {before behind : List Command}
      (entering : e.entering = before ++ c :: behind)
      (none : ¬ (e.mailbox c.account).length < cfg.mailboxCapacity) :
      Step cfg log e .internal
        { e with entering := before ++ behind, refused := e.refused ++ [(c, .mailboxFull)] }
  -- Agents
  | take {e : Engine σ} {a : AccountID} {c : Command} {rest : List Command}
      (idle : e.agent a = .idle) (queued : e.mailbox a = c :: rest) :
      Step cfg log e .internal
        ({ e with mailbox := Function.update e.mailbox a rest }.goTo a
          (.acquiring c [] (tokensFor c)))
  | lock {e : Engine σ} {a x : AccountID} {c : Command} {held wanted : List AccountID}
      (acquiring : e.agent a = .acquiring c held (x :: wanted)) (free : e.locks x = none) :
      Step cfg log e .internal
        ({ e with locks := Function.update e.locks x (some a) }.goTo a
          (.acquiring c (held ++ [x]) wanted))
  | decide {e : Engine σ} {a : AccountID} {c : Command} {held : List AccountID}
      (acquired : e.agent a = .acquiring c held []) :
      Step cfg log e .internal (e.goTo a (.sending (processGoM1 e.store (e.state a) c)))
  | send {e : Engine σ} {a : AccountID} {m : Commit} (sending : e.agent a = .sending m)
      (room : e.channel.length < cfg.authorityCapacity) :
      Step cfg log e .internal
        ({ e with channel := e.channel ++ [Message.commit m] }.goTo a (.waiting m.command))
  | resume {e : Engine σ} {a : AccountID} {c : Command} {outcome : Outcome}
      (waiting : e.agent a = .waiting c) (response : e.response a = some outcome) :
      Step cfg log e .internal
        ({ e with response := Function.update e.response a none }.goTo a
          (.releasing c outcome (tokensFor c)))
  | unlock {e : Engine σ} {a x : AccountID} {c : Command} {outcome : Outcome}
      {held : List AccountID} (releasing : e.agent a = .releasing c outcome (held ++ [x])) :
      Step cfg log e .internal
        ({ e with locks := Function.update e.locks x none }.goTo a (.releasing c outcome held))
  | answer {e : Engine σ} {a : AccountID} {c : Command} {outcome : Outcome}
      (released : e.agent a = .releasing c outcome []) :
      Step cfg log e .internal
        ({ e with answered := e.answered ++ [(c, outcome)] }.goTo a .idle)
  -- The authority
  | receive {e : Engine σ} {m : Commit} {rest : List Message} (idle : e.authority = .receiving)
      (queued : e.channel = .commit m :: rest) :
      Step cfg log e .internal { e with channel := rest, authority := .collecting [m] [] }
  | control {e : Engine σ} {k : Control} {rest : List Message} (idle : e.authority = .receiving)
      (queued : e.channel = .control k :: rest) :
      Step cfg log e .internal
        { e.handle log k with
          channel := rest
          authority := if k = .close then .stopped else .receiving }
  | collect {e : Engine σ} {m : Commit} {rest : List Message} {group : List Commit}
      {deferred : List Control} (collecting : e.authority = .collecting group deferred)
      (small : group.length < cfg.groupLimit) (queued : e.channel = .commit m :: rest) :
      Step cfg log e .internal
        { e with channel := rest, authority := .collecting (group ++ [m]) deferred }
  | defer {e : Engine σ} {k : Control} {rest : List Message} {group : List Commit}
      {deferred : List Control} (collecting : e.authority = .collecting group deferred)
      (small : group.length < cfg.groupLimit) (queued : e.channel = .control k :: rest) :
      Step cfg log e .internal
        { e with channel := rest, authority := .collecting group (deferred ++ [k]) }
  -- The group is full, the timer has fired, or without one the channel is empty.
  | cut {e : Engine σ} {group : List Commit} {deferred : List Control}
      (collecting : e.authority = .collecting group deferred)
      (done : cfg.groupLimit ≤ group.length ∨ cfg.groupWait ≠ 0 ∨ e.channel = [])
      (sane : e.poisoned = none) :
      Step cfg log e .internal { e with authority := .sorting group [] [] deferred }
  | cutPoisoned {e : Engine σ} {group : List Commit} {deferred : List Control} {err : String}
      (collecting : e.authority = .collecting group deferred)
      (done : cfg.groupLimit ≤ group.length ∨ cfg.groupWait ≠ 0 ∨ e.channel = [])
      (poisoned : e.poisoned = some err) :
      Step cfg log e .internal { e with authority := .responding (failures err group) deferred }
  | known {e : Engine σ} {m : Commit} {rest unique : List Commit}
      {repeats : List (Commit × Commit)} {deferred : List Control} {prior : Result}
      (sorting : e.authority = .sorting (m :: rest) unique repeats deferred)
      (seen : e.dedupe.results[m.record.commandID]? = some prior) :
      Step cfg log e .internal
        { e.respond m (.ok { prior with duplicate := true }) with
          authority := .sorting rest unique repeats deferred }
  | again {e : Engine σ} {m original : Commit} {rest unique : List Commit}
      {repeats : List (Commit × Commit)} {deferred : List Control}
      (sorting : e.authority = .sorting (m :: rest) unique repeats deferred)
      (unknown : e.dedupe.results[m.record.commandID]? = none)
      (seen : unique.find? (·.record.commandID = m.record.commandID) = some original) :
      Step cfg log e .internal
        { e with authority := .sorting rest unique (repeats ++ [(m, original)]) deferred }
  | number {e : Engine σ} {m : Commit} {rest unique : List Commit}
      {repeats : List (Commit × Commit)} {deferred : List Control}
      (sorting : e.authority = .sorting (m :: rest) unique repeats deferred)
      (unknown : e.dedupe.results[m.record.commandID]? = none)
      (new : unique.find? (·.record.commandID = m.record.commandID) = none) :
      Step cfg log e .internal
        { e with
          authority := .sorting rest
            (unique ++ [m.number (e.sequence + UInt64.ofNat unique.length + 1)]) repeats deferred }
  | nothing {e : Engine σ} {repeats : List (Commit × Commit)} {deferred : List Control}
      (sorted : e.authority = .sorting [] [] repeats deferred) :
      Step cfg log e .internal { e with authority := .controlling deferred }
  | append {e : Engine σ} {unique : List Commit} {repeats : List (Commit × Commit)}
      {deferred : List Control} {t : σ} (sorted : e.authority = .sorting [] unique repeats deferred)
      (nonempty : unique ≠ [])
      (appends : log.appendGroup e.log (unique.map Commit.record) = .ok t) :
      Step cfg log e .internal
        { e with
          log := t
          appended := e.appended ++ unique.map Commit.record
          authority := .applying unique unique repeats deferred }
  -- The log says why it does not take the group, or the storage fails.
  | fail {e : Engine σ} {unique : List Commit} {repeats : List (Commit × Commit)}
      {deferred : List Control} (sorted : e.authority = .sorting [] unique repeats deferred)
      (nonempty : unique ≠ []) (err : String) (left : σ) :
      Step cfg log e .fail
        { e with
          log := left
          poisoned := some err
          authority := .responding (failures err (unique ++ repeats.map Prod.fst)) deferred }
  | apply {e : Engine σ} {m : Commit} {rest unique : List Commit}
      {repeats : List (Commit × Commit)} {deferred : List Control}
      (applying : e.authority = .applying (m :: rest) unique repeats deferred) :
      Step cfg log e .internal
        { e.apply cfg m with authority := .applying rest unique repeats deferred }
  | applied {e : Engine σ} {unique : List Commit} {repeats : List (Commit × Commit)}
      {deferred : List Control} (applied : e.authority = .applying [] unique repeats deferred) :
      Step cfg log e .internal
        { e with authority := .responding (replies unique repeats) deferred }
  | respond {e : Engine σ} {m : Commit} {outcome : Outcome} {rest : List (Commit × Outcome)}
      {deferred : List Control}
      (responding : e.authority = .responding ((m, outcome) :: rest) deferred) :
      Step cfg log e .internal { e.respond m outcome with authority := .responding rest deferred }
  | responded {e : Engine σ} {deferred : List Control}
      (responded : e.authority = .responding [] deferred) :
      Step cfg log e .internal { e.finish cfg log with authority := .controlling deferred }
  -- Whether the engine was closed is not looked at here.
  | handle {e : Engine σ} {k : Control} {rest : List Control}
      (controlling : e.authority = .controlling (k :: rest)) :
      Step cfg log e .internal { e.handle log k with authority := .controlling rest }
  | handled {e : Engine σ} (controlled : e.authority = .controlling []) :
      Step cfg log e .internal { e with authority := .receiving }
  -- Close and Snapshot
  | close {e : Engine σ} (first : e.closed = false) :
      Step cfg log e .close { e with closed := true, closing := .posting }
  | post {e : Engine σ} (posting : e.closing = .posting)
      (room : e.channel.length < cfg.authorityCapacity) :
      Step cfg log e .internal
        { e with channel := e.channel ++ [.control .close], closing := .awaiting }
  | closed {e : Engine σ} (answered : e.closing = .answered) :
      Step cfg log e .internal { e with closing := .returned }
  | snapshot {e : Engine σ} (room : e.channel.length < cfg.authorityCapacity) :
      Step cfg log e .snapshot { e with channel := e.channel ++ [.control .snapshot] }

/-- An engine that can be reached by steps that are all allowed. -/
inductive Reach (cfg : EngineConfig) (log : GroupLog σ) (allowed : Engine σ → Event → Prop)
    (start : σ) : Engine σ → Prop
  | start : Reach cfg log allowed start { log := start }
  | step {e t : Engine σ} {event : Event} (before : Reach cfg log allowed start e)
      (next : Step cfg log e event t) (allows : allowed e event) : Reach cfg log allowed start t

end Engine

end OctetDB.Research
