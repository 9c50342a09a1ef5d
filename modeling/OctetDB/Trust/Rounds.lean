import OctetDB.Trust.Settlement

/-!
# Rounds of the scheduler

Each agent is owned by one worker. In a round every worker handles the items that are in its queue
when the round begins, and the workers take turns in any way. When all have finished, every message
that was sent goes to the queue of the worker that owns its agent, and the agents whose deadline has
passed are woken. Messages come in any order and any number of times, but none is lost.

A run in rounds is one of the runs of `Step`. What it adds is when things happen, and for that one
transfer can be looked at alone: whatever is handled for other transfers, its agent, its items, its
messages and its records stay as they are.
-/

namespace OctetDB.Trust

open Function (update update_of_ne update_self)

/-- What a worker has to do: to hand a message to an agent, or to step the agent. -/
structure WorkItem where
  transferID : String
  envelope : Option Envelope := none
  deriving DecidableEq, Repr

/-- A worker: its queue, the agents that are in the queue to be stepped, and what is left of the
items of this round. -/
structure SchedulerWorker where
  queue : List WorkItem := []
  queued : String → Bool := fun _ => false
  items : List WorkItem := []

namespace SchedulerWorker

def enqueue (w : SchedulerWorker) (id : String) : SchedulerWorker :=
  if w.queued id then w
  else
    { w with
      queue := w.queue ++ [{ transferID := id }]
      queued := update w.queued id true }

def enqueueEnvelope (w : SchedulerWorker) (e : Envelope) : SchedulerWorker :=
  { w with queue := w.queue ++ [{ transferID := e.transferID, envelope := some e }] }

/-- The queue is emptied at the begin of a round. -/
def take (w : SchedulerWorker) : SchedulerWorker where
  queue := []
  queued id := w.queued id && !w.queue.any fun item => item.transferID = id ∧ item.envelope = none
  items := w.queue

end SchedulerWorker

/-- A simulation with `n` workers. A message in the transport carries the worker that sent it. -/
structure Sim (n : Nat) where
  world : World
  agents : String → Option TransactionAgent
  workers : Fin n → SchedulerWorker
  transport : List (Fin n × Envelope) := []
  round : Int := 0

/-- What a worker does with an item of an agent that is not at its end, and whether the agent has to
be stepped again in the next round. -/
def workOn (cfg : Config) (w : World) (a : TransactionAgent) (item : WorkItem) (round : Int) :
    Except String (Handled × Bool) :=
  match item.envelope with
  | some e =>
    let r := deliver w a e round
    .ok (r, a.phase = .awaitAccept ∧ r.agent.phase = .commitSender)
  | none =>
    match step cfg w a round with
    | .error err => .error err
    | .ok r =>
      .ok (r, r.agent.phase.terminal = false ∧ r.agent.phase ≠ .awaitAccept ∧
        r.agent.phase ≠ .awaitAcknowledge)

namespace Sim

variable {n : Nat}

/-- Every agent is assigned to its worker, which has to step it. -/
def start (W : Workload) (owner : String → Fin n) (world : World) : Sim n where
  world := world
  agents id := ((List.finRange W.count).find? fun i => (W.attempt i).id = id).map
    fun i => .start (W.attempt i)
  workers w :=
    { queue := ((List.finRange W.count).filter fun i => owner (W.attempt i).id = w).map
        fun i => { transferID := (W.attempt i).id }
      queued := fun id => (List.finRange W.count).any
        fun i => (W.attempt i).id = id ∧ owner id = w }

def take (s : Sim n) : Sim n := { s with workers := fun w => (s.workers w).take }

def pop (s : Sim n) (w : Fin n) (rest : List WorkItem) : Sim n :=
  { s with workers := update s.workers w { s.workers w with items := rest } }

/-- What an item of an agent has led to. -/
def put (s : Sim n) (w : Fin n) (id : String) (r : Handled) (again : Bool) : Sim n :=
  { s with
    world := r.world
    agents := update s.agents id (some r.agent)
    workers := if again then update s.workers w ((s.workers w).enqueue id) else s.workers
    transport := s.transport ++ r.sent.map fun e => (w, e) }

/-- A worker handles its next item. -/
def handle (cfg : Config) (s : Sim n) (w : Fin n) : Except String (Sim n) :=
  match (s.workers w).items with
  | [] => .ok s
  | item :: rest =>
    match s.agents item.transferID with
    | none => .ok (s.pop w rest)
    | some a =>
      if a.phase.terminal then .ok (s.pop w rest)
      else
        match workOn cfg s.world a item s.round with
        | .error err => .error err
        | .ok (r, again) => .ok ((s.pop w rest).put w item.transferID r again)

/-- The messages go to the queues of the workers. -/
def drain (s : Sim n) (events : List (Fin n × Envelope)) : Sim n :=
  { s with
    workers := fun w => (events.filter fun ev => ev.1 = w).foldl
      (fun worker ev => worker.enqueueEnvelope ev.2) (s.workers w)
    transport := [] }

def wake (cfg : Config) (owner : String → Fin n) (s : Sim n) (id : String) : Sim n :=
  match (s.agents id).bind fun a => a.wakeDeadline cfg s.round with
  | none => s
  | some a =>
    { s with
      agents := update s.agents id (some a)
      workers := update s.workers (owner id) ((s.workers (owner id)).enqueue id) }

def wakeDeadlines (cfg : Config) (owner : String → Fin n) (s : Sim n) (ids : List String) : Sim n :=
  ids.foldl (wake cfg owner) s

def finish (cfg : Config) (owner : String → Fin n) (s : Sim n) (events : List (Fin n × Envelope))
    (ids : List String) : Sim n :=
  { (s.drain events).wakeDeadlines cfg owner ids with round := s.round + 1 }

end Sim

/-- A database forgets the result of a command. -/
def World.forget (w : World) (name : String) (command : Command) : World :=
  { w with
    bsos := update w.bsos name
      { w.bsos name with decided := update (w.bsos name).decided command none } }

variable {k : Nat} {item : WorkItem} {rest : List WorkItem} {id : String}

section Runs

variable {n : Nat}

/-- What happens while the workers run. -/
inductive Work (cfg : Config) : Sim n → Sim n → Prop
  | handle {s t : Sim n} {w : Fin n} (busy : (s.workers w).items ≠ [])
      (result : s.handle cfg w = .ok t) : Work cfg s t
  | forget {s : Sim n} (name : String) (command : Command) :
      Work cfg s { s with world := s.world.forget name command }

/-- The rest of a round in which the workers run. All messages are delivered, in any order and any
number of times; all agents are looked at for their deadlines, in any order. -/
inductive Ends (cfg : Config) (owner : String → Fin n) (s t : Sim n) : Prop
  | intro {m : Sim n} {events : List (Fin n × Envelope)} {ids : List String}
      (works : Relation.ReflTransGen (Work cfg) s m)
      (finished : ∀ w, (m.workers w).items = [])
      (delivered : ∀ ev, ev ∈ events ↔ ev ∈ m.transport)
      (once : ids.Nodup) (all : ∀ id, (m.agents id).isSome → id ∈ ids)
      (result : t = m.finish cfg owner events ids)

def Round (cfg : Config) (owner : String → Fin n) (s t : Sim n) : Prop := Ends cfg owner s.take t

inductive Rounds (cfg : Config) (owner : String → Fin n) : Nat → Sim n → Sim n → Prop
  | zero {s : Sim n} : Rounds cfg owner 0 s s
  | succ {k : Nat} {s m t : Sim n} (rounds : Rounds cfg owner k s m) (round : Round cfg owner m t) :
      Rounds cfg owner (k + 1) s t

theorem Rounds.trans {cfg : Config} {owner : String → Fin n} {j : Nat} {s m t : Sim n}
    (first : Rounds cfg owner j s m) (later : Rounds cfg owner k m t) :
    Rounds cfg owner (j + k) s t := by
  induction later with
  | zero => exact first
  | succ _ round ih => exact (ih first).succ round

end Runs

/-! ## A run in rounds is a run -/

namespace Sim

variable {n : Nat} {cfg : Config} {W : Workload} {initial : String → Int} {owner : String → Fin n}
  {s t : Sim n}

/-- The item is in the queue of the worker or is still to be done in this round. -/
def Queues (s : Sim n) (w : Fin n) (item : WorkItem) : Prop :=
  item ∈ (s.workers w).items ∨ item ∈ (s.workers w).queue

/-- The message is somewhere in the simulation. -/
def Holds (s : Sim n) (e : Envelope) : Prop :=
  (∃ w item, s.Queues w item ∧ item.envelope = some e) ∨ ∃ w, (w, e) ∈ s.transport

/-- The state is one of the states of a simulation in any order, and everything is with the worker
that owns the agent. -/
structure Sound (cfg : Config) (W : Workload) (initial : String → Int) (owner : String → Fin n)
    (s : Sim n) : Prop where
  reach : ∃ flight, Reach cfg W initial { world := s.world, agents := s.agents, flight } ∧
    ∀ e, s.Holds e → e ∈ flight
  items : ∀ w item, s.Queues w item → owner item.transferID = w ∧
    ∀ e, item.envelope = some e → e.transferID = item.transferID
  transport : ∀ ev ∈ s.transport, owner ev.2.transferID = ev.1

/-- Items are moved about, and agents are put in a queue. -/
theorem Sound.moved (sound : s.Sound cfg W initial owner)
    (same : t.world = s.world ∧ t.agents = s.agents)
    (queues : ∀ w item, t.Queues w item → s.Queues w item ∨
      (owner item.transferID = w ∧ item.envelope = none) ∨
      ∃ e, item = { transferID := e.transferID, envelope := some e } ∧ (w, e) ∈ s.transport)
    (transport : ∀ ev ∈ t.transport, ev ∈ s.transport) : t.Sound cfg W initial owner := by
  obtain ⟨flight, reach, held⟩ := sound.reach
  refine ⟨⟨flight, by rw [same.1, same.2]; exact reach, ?_⟩, ?_,
    fun ev mem => sound.transport ev (transport ev mem)⟩
  · rintro e (⟨w, item, mem, carried⟩ | ⟨w, mem⟩)
    · obtain before | ⟨-, empty⟩ | ⟨f, rfl, sent⟩ := queues w item mem
      · exact held e (.inl ⟨w, item, before, carried⟩)
      · rw [empty] at carried
        cases carried
      · cases carried
        exact held e (.inr ⟨w, sent⟩)
    · exact held e (.inr ⟨w, transport _ mem⟩)
  · intro w item mem
    obtain before | ⟨owned, empty⟩ | ⟨f, rfl, sent⟩ := queues w item mem
    · exact sound.items w item before
    · exact ⟨owned, fun e carried => by rw [empty] at carried; cases carried⟩
    · exact ⟨sound.transport _ sent, fun e carried => by cases carried; rfl⟩

theorem Sound.take (sound : s.Sound cfg W initial owner) : s.take.Sound cfg W initial owner := by
  refine sound.moved ⟨rfl, rfl⟩ (fun w item mem => .inl (.inr ?_)) fun ev mem => mem
  obtain taken | queued := mem
  · exact taken
  · cases queued

theorem queues_pop {w : Fin n} (items : (s.workers w).items = item :: rest) {v : Fin n}
    {other : WorkItem} (mem : (s.pop w rest).Queues v other) : s.Queues v other := by
  by_cases same : v = w
  · subst same
    simp only [Queues, Sim.pop, update_self] at mem
    exact mem.imp_left fun left => items ▸ List.mem_cons_of_mem item left
  · simp only [Queues, Sim.pop, update_of_ne same] at mem
    exact mem

theorem Sound.pop (sound : s.Sound cfg W initial owner) {w : Fin n}
    (items : (s.workers w).items = item :: rest) :
    (s.pop w rest).Sound cfg W initial owner :=
  sound.moved ⟨rfl, rfl⟩ (fun _ _ mem => .inl (queues_pop items mem)) fun _ mem => mem

theorem mem_enqueue {worker : SchedulerWorker} (mem : item ∈ (worker.enqueue id).queue) :
    item ∈ worker.queue ∨ item = { transferID := id } := by
  unfold SchedulerWorker.enqueue at mem
  split_ifs at mem
  · exact .inl mem
  · simpa using mem

theorem items_enqueue (worker : SchedulerWorker) (id : String) :
    (worker.enqueue id).items = worker.items := by
  unfold SchedulerWorker.enqueue
  split_ifs <;> rfl

theorem queues_enqueue {w : Fin n} {v : Fin n} (owned : owner id = w)
    (mem : item ∈ (update s.workers w ((s.workers w).enqueue id) v).items ∨
      item ∈ (update s.workers w ((s.workers w).enqueue id) v).queue) :
    s.Queues v item ∨ (owner item.transferID = v ∧ item.envelope = none) := by
  by_cases same : v = w
  · subst same
    rw [update_self, items_enqueue] at mem
    obtain left | queued := mem
    · exact .inl (.inl left)
    · obtain before | rfl := mem_enqueue queued
      · exact .inl (.inr before)
      · exact .inr ⟨owned, rfl⟩
  · rw [update_of_ne same] at mem
    exact .inl mem

/-- What an item leads to is the result of a step or of a delivery. -/
theorem Sound.put (sound : s.Sound cfg W initial owner) {w : Fin n} {r : Handled} (again : Bool)
    (owned : owner id = w) (sent : ∀ e ∈ r.sent, e.transferID = id) {flight : List Envelope}
    (reach : Reach cfg W initial
      { world := r.world, agents := update s.agents id (some r.agent), flight })
    (held : ∀ e, s.Holds e ∨ e ∈ r.sent → e ∈ flight) :
    (s.put w id r again).Sound cfg W initial owner := by
  have queues : ∀ v item, (s.put w id r again).Queues v item →
      s.Queues v item ∨ (owner item.transferID = v ∧ item.envelope = none) := by
    intro v item mem
    cases again with
    | false => exact .inl mem
    | true => exact queues_enqueue owned mem
  refine ⟨⟨flight, reach, ?_⟩, ?_, ?_⟩
  · rintro e (⟨v, item, mem, carried⟩ | ⟨v, mem⟩)
    · obtain old | ⟨-, empty⟩ := queues v item mem
      · exact held e (.inl (.inl ⟨v, item, old, carried⟩))
      · rw [empty] at carried
        cases carried
    · obtain old | new := List.mem_append.mp mem
      · exact held e (.inl (.inr ⟨v, old⟩))
      · obtain ⟨f, inside, eq⟩ := List.mem_map.mp new
        cases eq
        exact held e (.inr inside)
  · intro v item mem
    obtain old | ⟨owned, empty⟩ := queues v item mem
    · exact sound.items v item old
    · exact ⟨owned, fun e carried => by rw [empty] at carried; cases carried⟩
  · intro ev mem
    obtain old | new := List.mem_append.mp mem
    · exact sound.transport ev old
    · obtain ⟨f, inside, rfl⟩ := List.mem_map.mp new
      exact (congrArg owner (sent f inside)).trans owned

theorem handle_ok {w : Fin n} (items : (s.workers w).items = item :: rest)
    (result : s.handle cfg w = .ok t) :
    (t = s.pop w rest ∧ ∀ a, s.agents item.transferID = some a → a.phase.terminal) ∨
      ∃ a r again, s.agents item.transferID = some a ∧ a.phase.terminal = false ∧
        workOn cfg s.world a item s.round = .ok (r, again) ∧
        t = (s.pop w rest).put w item.transferID r again := by
  rw [handle, items] at result
  cases owned : s.agents item.transferID with
  | none =>
    simp only [owned] at result
    cases result
    exact .inl ⟨rfl, fun a owns => by cases owns⟩
  | some a =>
    simp only [owned] at result
    cases ended : a.phase.terminal with
    | true =>
      rw [if_pos ended] at result
      cases result
      exact .inl ⟨rfl, fun b same => by cases same; exact ended⟩
    | false =>
      rw [if_neg (by simp [ended])] at result
      cases done : workOn cfg s.world a item s.round with
      | error err => simp [done] at result
      | ok outcome =>
        obtain ⟨r, again⟩ := outcome
        simp only [done] at result
        cases result
        exact .inr ⟨a, r, again, rfl, ended, done, rfl⟩

theorem handle_error {w : Fin n} {err : String} (result : s.handle cfg w = .error err) :
    ∃ item rest a, (s.workers w).items = item :: rest ∧ s.agents item.transferID = some a ∧
      workOn cfg s.world a item s.round = .error err := by
  rw [handle] at result
  cases items : (s.workers w).items with
  | nil => simp [items] at result
  | cons item rest =>
    simp only [items] at result
    cases owned : s.agents item.transferID with
    | none => simp [owned] at result
    | some a =>
      simp only [owned] at result
      split_ifs at result
      cases done : workOn cfg s.world a item s.round with
      | ok outcome => simp [done] at result
      | error err' =>
        simp only [done, Except.error.injEq] at result
        exact ⟨item, rest, a, rfl, owned, result ▸ done⟩

/-- The outcome of an item is that of a step or of a delivery of the simulation, and keeps what they
keep. -/
theorem Sound.outcome (sound : s.Sound cfg W initial owner) {w : Fin n} (queued : s.Queues w item)
    {a : TransactionAgent} {r : Handled} {again : Bool} (owned : s.agents item.transferID = some a)
    (running : a.phase.terminal = false)
    (done : workOn cfg s.world a item s.round = .ok (r, again)) :
    (∃ i, (W.attempt i).id = item.transferID ∧ r.Keeps W initial s.world i) ∧
      ∃ flight, Reach cfg W initial
          { world := r.world
            agents := update s.agents item.transferID (some r.agent)
            flight } ∧ ∀ e, s.Holds e ∨ e ∈ r.sent → e ∈ flight := by
  obtain ⟨flight, reach, held⟩ := sound.reach
  have inv := reach.inv
  obtain ⟨i, own, carries⟩ := inv.carries _ a owned
  have waiting := inv.waiting _ a owned
  rw [carries] at waiting
  have under : ∀ e, s.Holds e ∨ e ∈ r.sent → e ∈ flight ++ r.sent :=
    fun e => fun
      | .inl before => List.mem_append_left _ (held e before)
      | .inr new => List.mem_append_right _ new
  unfold workOn at done
  cases message : item.envelope with
  | none =>
    simp only [message] at done
    cases result : step cfg s.world a s.round with
    | error err => simp [result] at done
    | ok outcome =>
      simp only [result, Except.ok.injEq, Prod.mk.injEq] at done
      obtain ⟨rfl, -⟩ := done
      exact ⟨⟨i, own, step_keeps inv.ledger inv.known carries waiting result⟩, _,
        reach.next (.turn owned running result), under⟩
  | some e =>
    simp only [message, Except.ok.injEq, Prod.mk.injEq] at done
    obtain ⟨rfl, -⟩ := done
    have holds : s.Holds e := .inl ⟨w, item, queued, message⟩
    have id := (sound.items w item queued).2 e message
    obtain ⟨j, about, commit⟩ := inv.about e (held e holds)
    obtain rfl : j = i := W.distinct (about.transferID.symm.trans (id.trans own.symm))
    refine ⟨⟨j, own, deliver_keeps inv.ledger inv.known carries waiting about commit s.round⟩,
      _, ?_, under⟩
    -- The message may come again, so it stays among those that are under way.
    have doubled := reach.next (.duplicate (held e holds))
    have delivered := doubled.next (@Step.deliver _ _ [] flight e a s.round rfl
      (id.symm ▸ owned) running)
    rwa [id] at delivered

theorem Sound.handle (sound : s.Sound cfg W initial owner) {w : Fin n}
    (busy : (s.workers w).items ≠ []) (result : s.handle cfg w = .ok t) :
    t.Sound cfg W initial owner := by
  obtain ⟨item, rest, items⟩ := List.exists_cons_of_ne_nil busy
  have queued : s.Queues w item := .inl (by simp [items])
  obtain ⟨rfl, -⟩ | ⟨a, r, again, owned, running, done, rfl⟩ := handle_ok items result
  · exact sound.pop items
  · obtain ⟨⟨i, own, keeps⟩, flight, reach, held⟩ := sound.outcome queued owned running done
    refine (sound.pop items).put again (sound.items w item queued).1
      (fun e mem => (keeps.about e mem).1.transferID.trans own) reach fun e under => ?_
    refine held e (under.imp_left ?_)
    rintro (⟨v, other, mem, carried⟩ | ⟨v, mem⟩)
    · exact .inl ⟨v, other, queues_pop items mem, carried⟩
    · exact .inr ⟨v, mem⟩

theorem Sound.work (sound : s.Sound cfg W initial owner) (work : Work cfg s t) :
    t.Sound cfg W initial owner := by
  cases work with
  | handle busy result => exact sound.handle busy result
  | forget name command =>
    obtain ⟨flight, reach, held⟩ := sound.reach
    exact ⟨⟨flight, reach.next (.forget name command), held⟩, sound.items, sound.transport⟩

theorem Sound.works (sound : s.Sound cfg W initial owner)
    (works : Relation.ReflTransGen (Work cfg) s t) : t.Sound cfg W initial owner := by
  induction works with
  | refl => exact sound
  | tail _ work ih => exact ih.work work

theorem queue_drain (worker : SchedulerWorker) (events : List (Fin n × Envelope)) :
    events.foldl (fun worker ev => worker.enqueueEnvelope ev.2) worker =
      { worker with queue := worker.queue ++ events.map fun ev =>
          { transferID := ev.2.transferID, envelope := some ev.2 } } := by
  induction events generalizing worker with
  | nil => simp
  | cons ev events ih =>
    rw [List.foldl_cons, ih]
    simp [SchedulerWorker.enqueueEnvelope]

theorem Sound.drain (sound : s.Sound cfg W initial owner) {events : List (Fin n × Envelope)}
    (delivered : ∀ ev, ev ∈ events ↔ ev ∈ s.transport) :
    (s.drain events).Sound cfg W initial owner := by
  refine sound.moved ⟨rfl, rfl⟩ (fun w item mem => ?_) nofun
  simp only [Queues, Sim.drain, queue_drain, List.mem_append, List.mem_map, List.mem_filter,
    decide_eq_true_eq] at mem
  obtain left | queued | ⟨⟨v, e⟩, ⟨mem, rfl⟩, rfl⟩ := mem
  · exact .inl (.inl left)
  · exact .inl (.inr queued)
  · exact .inr (.inr ⟨e, rfl, (delivered _).mp mem⟩)

theorem Sound.wake (sound : s.Sound cfg W initial owner) (id : String) :
    (s.wake cfg owner id).Sound cfg W initial owner := by
  unfold Sim.wake
  cases woken : (s.agents id).bind fun a => a.wakeDeadline cfg s.round with
  | none => exact sound
  | some a' =>
    obtain ⟨a, owned, woken⟩ := Option.bind_eq_some_iff.mp woken
    obtain ⟨flight, reach, held⟩ := sound.reach
    have awake : Sim.Sound cfg W initial owner
        { s with agents := update s.agents id (some a') } :=
      ⟨⟨flight, reach.next (.wake owned woken), held⟩, sound.items, sound.transport⟩
    refine awake.moved ⟨rfl, rfl⟩ (fun w item mem => ?_) fun ev mem => mem
    exact (queues_enqueue rfl mem).imp_right Or.inl

theorem Sound.finish (sound : s.Sound cfg W initial owner) {events : List (Fin n × Envelope)}
    (delivered : ∀ ev, ev ∈ events ↔ ev ∈ s.transport) (ids : List String) :
    (s.finish cfg owner events ids).Sound cfg W initial owner := by
  have awake : ((s.drain events).wakeDeadlines cfg owner ids).Sound cfg W initial owner := by
    refine List.foldlRecOn ids _ (sound.drain delivered) fun m sound id _ => ?_
    exact sound.wake id
  exact ⟨awake.reach, awake.items, awake.transport⟩

theorem Sound.ends (sound : s.Sound cfg W initial owner) (ends : Ends cfg owner s t) :
    t.Sound cfg W initial owner := by
  obtain ⟨works, -, delivered, -, -, rfl⟩ := ends
  exact (sound.works works).finish delivered _

theorem Sound.round (sound : s.Sound cfg W initial owner) (round : Round cfg owner s t) :
    t.Sound cfg W initial owner :=
  sound.take.ends round

theorem Sound.rounds (sound : s.Sound cfg W initial owner) (rounds : Rounds cfg owner k s t) :
    t.Sound cfg W initial owner := by
  induction rounds with
  | zero => exact sound
  | succ _ round ih => exact (ih sound).round round

theorem start_agent {world : World} (i : Fin W.count) :
    (start W owner world).agents (W.attempt i).id = some (.start (W.attempt i)) := by
  have found : ((List.finRange W.count).find? fun j => (W.attempt j).id = (W.attempt i).id) =
      some i := by
    cases result : (List.finRange W.count).find? fun j => (W.attempt j).id = (W.attempt i).id with
    | none =>
      have := List.find?_eq_none.mp result i (List.mem_finRange i)
      simp at this
    | some j =>
      have same := List.find?_some result
      exact congrArg some (W.distinct (by simpa using same))
  simp only [start, found, Option.map_some]

/-- The authorities of all transfers are open and have recorded nothing. -/
structure Opens (W : Workload) (initial : String → Int) (world : World) : Prop where
  fresh : ∃ policies : String → TrustPolicy, world.bsos = fun name =>
    { id := name, balance := initial name, trustPolicy := policies name }
  senders : ∀ i, (W.attempt i).fromBSO ∈ world.activeIDs
  receivers : ∀ i, (W.attempt i).toBSO ∈ world.activeIDs

theorem start_sound {world : World} (opens : Opens W initial world) :
    (start W owner world).Sound cfg W initial owner := by
  refine ⟨⟨[], .start ⟨opens.fresh, fun id a owned => ?_, rfl⟩, ?_⟩, ?_, nofun⟩
  · obtain ⟨i, found, rfl⟩ := Option.map_eq_some_iff.mp owned
    exact ⟨i, by simpa using List.find?_some found, rfl⟩
  · rintro e (⟨w, item, left | queued, carried⟩ | ⟨w, mem⟩)
    · cases left
    · obtain ⟨i, -, rfl⟩ := List.mem_map.mp queued
      cases carried
    · cases mem
  · rintro w item (left | queued)
    · cases left
    · obtain ⟨i, mem, rfl⟩ := List.mem_map.mp queued
      exact ⟨by simpa using (List.mem_filter.mp mem).2, nofun⟩

/-! ## A round comes to its end -/

theorem work_time (work : Work cfg s t) : t.round = s.round := by
  cases work with
  | forget => rfl
  | handle busy result =>
    obtain ⟨item, rest, items⟩ := List.exists_cons_of_ne_nil busy
    obtain ⟨rfl, -⟩ | ⟨a, r, again, -, -, -, rfl⟩ := handle_ok items result <;> rfl

theorem rounds_time (rounds : Rounds cfg owner k s t) : t.round = s.round + k := by
  induction rounds with
  | zero => simp
  | @succ k s m t _ round ih =>
    obtain @⟨m', events, ids, works, -, -, -, -, rfl⟩ := round
    have same : m'.round = m.round := by
      induction works with
      | refl => rfl
      | tail _ one ih => exact (work_time one).trans ih
    have next : (m'.finish cfg owner events ids).round = m'.round + 1 := rfl
    omega

/-- How many items are still to be done in this round. -/
def left (s : Sim n) : Nat := ∑ w, (s.workers w).items.length

theorem left_handle {w : Fin n} (busy : (s.workers w).items ≠ [])
    (result : s.handle cfg w = .ok t) : t.left < s.left := by
  obtain ⟨item, rest, items⟩ := List.exists_cons_of_ne_nil busy
  have popped : ∀ v, ((s.pop w rest).workers v).items.length ≤ (s.workers v).items.length ∧
      (v = w → ((s.pop w rest).workers v).items.length < (s.workers v).items.length) := by
    intro v
    by_cases same : v = w
    · subst same
      simp [pop, items]
    · simp [pop, same]
  have fewer : (s.pop w rest).left < s.left :=
    Finset.sum_lt_sum (fun v _ => (popped v).1) ⟨w, Finset.mem_univ w, (popped w).2 rfl⟩
  obtain ⟨rfl, -⟩ | ⟨a, r, again, -, -, -, rfl⟩ := handle_ok items result
  · exact fewer
  · refine lt_of_eq_of_lt ?_ fewer
    cases again with
    | false => rfl
    | true =>
      refine Finset.sum_congr rfl fun v _ => congrArg List.length ?_
      by_cases same : v = w
      · subst same
        simp only [put, if_true, update_self, items_enqueue]
      · simp only [put, if_true, update_of_ne same]

theorem Sound.listed (sound : s.Sound cfg W initial owner) (id : String)
    (owned : (s.agents id).isSome) :
    id ∈ (List.finRange W.count).map fun i => (W.attempt i).id := by
  obtain ⟨a, owned⟩ := Option.isSome_iff_exists.mp owned
  obtain ⟨flight, reach, -⟩ := sound.reach
  obtain ⟨i, own, -⟩ := reach.inv.carries id a owned
  exact List.mem_map.mpr ⟨i, List.mem_finRange i, own⟩

/-- A round can always be completed, unless the step of an agent fails. -/
theorem Sound.progress (sound : s.Sound cfg W initial owner) :
    (∃ t, Round cfg owner s t) ∨ ∃ m w err, Relation.ReflTransGen (Work cfg) s.take m ∧
      m.handle cfg w = .error err := by
  suffices ends : ∀ k m, Relation.ReflTransGen (Work cfg) s.take m → m.left = k →
      (∃ t, Round cfg owner s t) ∨ ∃ m w err, Relation.ReflTransGen (Work cfg) s.take m ∧
        m.handle cfg w = .error err from ends _ s.take .refl rfl
  intro k
  induction k using Nat.strong_induction_on with
  | _ k ih =>
    rintro m works rfl
    by_cases finished : ∀ w, (m.workers w).items = []
    · exact .inl ⟨_, works, finished, fun _ => .rfl, (List.nodup_finRange _).map W.distinct,
        (sound.take.works works).listed, rfl⟩
    · push Not at finished
      obtain ⟨w, busy⟩ := finished
      cases result : m.handle cfg w with
      | error err => exact .inr ⟨m, w, err, works, result⟩
      | ok t => exact ih _ (left_handle busy result) t (works.tail (.handle busy result)) rfl

end Sim

end OctetDB.Trust
