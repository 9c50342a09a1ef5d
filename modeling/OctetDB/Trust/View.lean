import OctetDB.Trust.Rounds

/-!
# One transfer in a simulation

What the workers do for other transfers does not touch a transfer: its agent, its items, its
messages and its records stay as they are. So a round can be read off from the items of the
transfer alone, handled one after the other, with whatever the authorities are at that time.
-/

namespace OctetDB.Trust

open Function (update_of_ne update_self)

/-- Everything about a transfer that is not in the records of the authorities. -/
structure View where
  agent : Option TransactionAgent
  items : List WorkItem
  queue : List WorkItem
  queued : Bool
  sent : List Envelope

/-- An item of the transfer has been handled. -/
def View.put (v : View) (id : String) (r : Handled) (again : Bool) : View where
  agent := some r.agent
  items := v.items
  queue := if again && !v.queued then v.queue ++ [{ transferID := id }] else v.queue
  queued := v.queued || again
  sent := v.sent ++ r.sent

variable {n : Nat} {cfg : Config} {W : Workload} {initial : String → Int} {owner : String → Fin n}
  {s t : Sim n} {id other : String}

namespace Sim

def view (owner : String → Fin n) (id : String) (s : Sim n) : View where
  agent := s.agents id
  items := (s.workers (owner id)).items.filter fun item => item.transferID = id
  queue := (s.workers (owner id)).queue.filter fun item => item.transferID = id
  queued := (s.workers (owner id)).queued id
  sent := (s.transport.map Prod.snd).filter fun e => e.transferID = id

theorem view_pop_other {w : Fin n} {item : WorkItem} {rest : List WorkItem}
    (items : (s.workers w).items = item :: rest) (ne : item.transferID ≠ id) :
    (s.pop w rest).view owner id = s.view owner id := by
  by_cases same : owner id = w
  · subst same
    simp [view, pop, items, ne]
  · simp [view, pop, update_of_ne same]

theorem view_pop_own {item : WorkItem} {rest : List WorkItem}
    (items : (s.workers (owner id)).items = item :: rest) (eq : item.transferID = id) :
    (s.view owner id).items = item :: ((s.pop (owner id) rest).view owner id).items ∧
      (s.pop (owner id) rest).view owner id =
        { s.view owner id with items := ((s.pop (owner id) rest).view owner id).items } := by
  simp [view, pop, items, eq]

theorem enqueue_other (worker : SchedulerWorker) (ne : other ≠ id) :
    (worker.enqueue other).items = worker.items ∧
      (worker.enqueue other).queued id = worker.queued id ∧
      ((worker.enqueue other).queue.filter fun item => item.transferID = id) =
        worker.queue.filter fun item => item.transferID = id := by
  unfold SchedulerWorker.enqueue
  split_ifs
  · exact ⟨rfl, rfl, rfl⟩
  · refine ⟨rfl, update_of_ne ne.symm .., ?_⟩
    simp [ne]

theorem view_put_other {w : Fin n} {r : Handled} {again : Bool} (ne : other ≠ id)
    (sent : ∀ e ∈ r.sent, e.transferID = other) :
    (s.put w other r again).view owner id = s.view owner id := by
  have air : (r.sent.filter fun e => e.transferID = id) = [] := by
    rw [List.filter_eq_nil_iff]
    intro e mem
    simp [sent e mem, ne]
  have worker : ∀ v, ((s.put w other r again).workers v).items = (s.workers v).items ∧
      ((s.put w other r again).workers v).queued id = (s.workers v).queued id ∧
      (((s.put w other r again).workers v).queue.filter fun item => item.transferID = id) =
        (s.workers v).queue.filter fun item => item.transferID = id := by
    intro v
    cases again with
    | false => exact ⟨rfl, rfl, rfl⟩
    | true =>
      by_cases same : v = w
      · subst same
        simp only [put, if_true, update_self]
        exact enqueue_other _ ne
      · simp only [put, if_true, update_of_ne same, and_self]
  unfold view
  rw [(worker _).1, (worker _).2.1, (worker _).2.2]
  congr 1
  · exact update_of_ne ne.symm ..
  · simp only [put, List.map_append, List.map_map, List.filter_append, Function.comp_def,
      List.map_id', air, List.append_nil]

theorem view_put_own {r : Handled} {again : Bool} (sent : ∀ e ∈ r.sent, e.transferID = id) :
    (s.put (owner id) id r again).view owner id = (s.view owner id).put id r again := by
  have air : (r.sent.filter fun e => e.transferID = id) = r.sent := by
    rw [List.filter_eq_self]
    intro e mem
    simp [sent e mem]
  have sends : ((s.put (owner id) id r again).view owner id).sent =
      (s.view owner id).sent ++ r.sent := by
    simp only [view, put, List.map_append, List.map_map, List.filter_append, Function.comp_def,
      List.map_id', air]
  cases again with
  | false =>
    simp only [View.put, ← sends]
    simp [view, put]
  | true =>
    simp only [View.put, ← sends]
    cases queued : (s.workers (owner id)).queued id <;>
      simp [view, put, SchedulerWorker.enqueue, queued]

/-! ### What a round does to it -/

/-- Something happens while the workers run: it is not about the transfer, or an item of the
transfer is passed over because its agent has come to the end, or an item of the transfer is
handled. -/
theorem Sound.work_view (sound : s.Sound cfg W initial owner) (i : Fin W.count)
    (work : Work cfg s t) :
    t.round = s.round ∧ t.world.activeIDs = s.world.activeIDs ∧
    ((t.view owner (W.attempt i).id = s.view owner (W.attempt i).id ∧
        ∀ name, (s.world.bsos name).Apart (W.attempt i).id (t.world.bsos name)) ∨
      (∃ item rest, (s.view owner (W.attempt i).id).items = item :: rest ∧
        (∀ a, (s.view owner (W.attempt i).id).agent = some a → a.phase.terminal) ∧
        t.view owner (W.attempt i).id = { s.view owner (W.attempt i).id with items := rest } ∧
        t.world = s.world) ∨
      ∃ item rest a r again, (s.view owner (W.attempt i).id).items = item :: rest ∧
        (s.view owner (W.attempt i).id).agent = some a ∧ a.phase.terminal = false ∧
        workOn cfg s.world a item s.round = .ok (r, again) ∧
        t.view owner (W.attempt i).id =
          View.put { s.view owner (W.attempt i).id with items := rest } (W.attempt i).id r again ∧
        t.world = r.world) := by
  cases work with
  | forget name command =>
    refine ⟨rfl, rfl, .inl ⟨rfl, apart_update  ?_⟩⟩
    refine ⟨rfl, rfl, rfl, fun c r _ known => ?_⟩
    by_cases same : c = command
    · simp [same] at known
    · simpa [update_of_ne same] using known
  | @handle _ w busy result =>
    obtain ⟨item, rest, items⟩ := List.exists_cons_of_ne_nil busy
    have queued : s.Queues w item := .inl (by simp [items])
    have owned := (sound.items w item queued).1
    by_cases own : item.transferID = (W.attempt i).id
    · rw [own] at owned
      subst owned
      obtain ⟨head, popped⟩ := view_pop_own items own
      obtain ⟨rfl, ended⟩ | ⟨a, r, again, found, running, done, rfl⟩ := handle_ok items result
      · exact ⟨rfl, rfl, .inr (.inl ⟨item, _, head, own ▸ ended, popped, rfl⟩)⟩
      · obtain ⟨⟨j, same, keeps⟩, -⟩ := sound.outcome queued found running done
        have sent : ∀ e ∈ r.sent, e.transferID = (W.attempt i).id :=
          fun e mem => (keeps.about e mem).1.transferID.trans (same.trans own)
        refine ⟨rfl, keeps.active, .inr (.inr ⟨item, _, a, r, again, head, own ▸ found, running,
          done, ?_, rfl⟩)⟩
        rw [own, view_put_own sent, popped]
    · obtain ⟨rfl, -⟩ | ⟨a, r, again, found, running, done, rfl⟩ := handle_ok items result
      · exact ⟨rfl, rfl, .inl ⟨view_pop_other items own,
          fun _ => ⟨rfl, rfl, rfl, fun _ _ _ known => known⟩⟩⟩
      · obtain ⟨⟨j, same, keeps⟩, -⟩ := sound.outcome queued found running done
        have sent : ∀ e ∈ r.sent, e.transferID = item.transferID :=
          fun e mem => (keeps.about e mem).1.transferID.trans same
        refine ⟨rfl, keeps.active, .inl ⟨?_, keeps.apart _ fun eq => own (same ▸ eq.symm)⟩⟩
        rw [view_put_other own sent, view_pop_other items own]

end Sim

structure Ready (a : Attempt) (w : World) : Prop where
  named : ∀ name, (w.bsos name).id = name
  sender : a.fromBSO ∈ w.activeIDs
  receiver : a.toBSO ∈ w.activeIDs

theorem Sim.Sound.named (sound : s.Sound cfg W initial owner) (name : String) :
    (s.world.bsos name).id = name := by
  obtain ⟨flight, reach, -⟩ := sound.reach
  exact reach.inv.ledger.named name

/-! ### The end of a round -/

/-- The item with which a message is handed to its agent. -/
def Envelope.item (e : Envelope) : WorkItem where
  transferID := e.transferID
  envelope := some e

def View.arrive (v : View) (arrived : List Envelope) : View :=
  { v with queue := v.queue ++ arrived.map Envelope.item, sent := [] }

def View.wake (cfg : Config) (round : Int) (id : String) (v : View) : View :=
  match v.agent.bind fun a => a.wakeDeadline cfg round with
  | none => v
  | some a =>
    { v with
      agent := some a
      queue := if v.queued then v.queue else v.queue ++ [{ transferID := id }]
      queued := true }

namespace Sim

theorem view_drain {events : List (Fin n × Envelope)}
    (homed : ∀ ev ∈ events, owner ev.2.transferID = ev.1) :
    (s.drain events).view owner id = (s.view owner id).arrive
      ((events.map Prod.snd).filter fun e => e.transferID = id) := by
  have mine : ((events.filter fun ev => ev.1 = owner id).filter
      fun ev => ev.2.transferID = id) = events.filter fun ev => ev.2.transferID = id := by
    rw [List.filter_filter]
    refine List.filter_congr fun ev mem => ?_
    rw [← homed ev mem]
    by_cases own : ev.2.transferID = id <;> simp [own]
  simp only [view, drain, queue_drain, View.arrive, Envelope.item, List.filter_append,
    List.filter_map, Function.comp_def, List.map_nil, List.filter_nil, List.map_map, mine]

theorem wake_round (s : Sim n) (id : String) : (s.wake cfg owner id).round = s.round := by
  unfold wake
  split <;> rfl

theorem view_wake_other (ne : other ≠ id) :
    (s.wake cfg owner other).view owner id = s.view owner id := by
  unfold wake
  split
  · rfl
  · rename_i a _
    simp only [view, update_of_ne ne.symm]
    by_cases same : owner id = owner other
    · obtain ⟨items, queued, queue⟩ := enqueue_other (s.workers (owner other)) ne
      simp only [same, update_self, items, queued, queue]
    · simp only [update_of_ne same]

theorem view_wake_own : (s.wake cfg owner id).view owner id =
    (s.view owner id).wake cfg s.round id := by
  unfold wake View.wake
  cases woken : (s.agents id).bind fun a => a.wakeDeadline cfg s.round with
  | none => simp only [view, woken]
  | some a =>
    simp only [view, woken, update_self]
    by_cases queued : (s.workers (owner id)).queued id <;>
      simp [SchedulerWorker.enqueue, queued]

theorem view_wakeDeadlines_other {ids : List String} (absent : id ∉ ids) :
    (s.wakeDeadlines cfg owner ids).view owner id = s.view owner id := by
  induction ids generalizing s with
  | nil => rfl
  | cons other ids ih =>
    rw [List.mem_cons, not_or] at absent
    exact (ih absent.2).trans (view_wake_other (Ne.symm absent.1))

theorem view_wakeDeadlines {ids : List String} (once : ids.Nodup) (mem : id ∈ ids) :
    (s.wakeDeadlines cfg owner ids).view owner id = (s.view owner id).wake cfg s.round id := by
  induction ids generalizing s with
  | nil => cases mem
  | cons other ids ih =>
    rw [List.nodup_cons] at once
    by_cases same : other = id
    · subst same
      exact (view_wakeDeadlines_other once.1).trans view_wake_own
    · have rest := ih (s := s.wake cfg owner other) once.2
        ((List.mem_cons.mp mem).resolve_left (Ne.symm same))
      rw [wake_round, view_wake_other same] at rest
      exact rest

theorem wakeDeadlines_world (ids : List String) :
    (s.wakeDeadlines cfg owner ids).world = s.world := by
  induction ids generalizing s with
  | nil => rfl
  | cons other ids ih =>
    refine (ih (s := s.wake cfg owner other)).trans ?_
    unfold wake
    split <;> rfl

end Sim

/-- What the worker has to do for the transfer when a round begins. -/
def View.take (v : View) : View where
  agent := v.agent
  items := v.queue
  queue := []
  queued := v.queued && !v.queue.any fun item => item.envelope = none
  sent := v.sent

theorem Sim.view_take :
    s.take.view owner id = (s.view owner id).take := by
  simp [view, Sim.take, SchedulerWorker.take, View.take, List.any_filter]

section Kept

variable {P : View → (String → BSO) → Prop} (sound : s.Sound cfg W initial owner)
  (i : Fin W.count) (ready : Ready (W.attempt i) s.world)
  (stable : ∀ v bsos bsos', P v bsos →
    (∀ name, (bsos name).Apart (W.attempt i).id (bsos' name)) → P v bsos')
  (skip : ∀ v bsos item rest, P v bsos → v.items = item :: rest →
    (∀ a, v.agent = some a → a.phase.terminal) → P { v with items := rest } bsos)
  (work : ∀ m, Relation.ReflTransGen (Work cfg) s m → Ready (W.attempt i) m.world →
    ∀ v item rest a r again, P v m.world.bsos → v.items = item :: rest → v.agent = some a →
      a.phase.terminal = false → workOn cfg m.world a item s.round = .ok (r, again) →
      P (View.put { v with items := rest } (W.attempt i).id r again) r.world.bsos)
  (holds : P (s.view owner (W.attempt i).id) s.world.bsos)

include sound ready stable skip work holds

/-- A property of the transfer and its records that other transfers cannot touch holds while the
workers run, if it holds before and every item of the transfer keeps it. -/
theorem Sim.Sound.works_view (works : Relation.ReflTransGen (Work cfg) s t) :
    P (t.view owner (W.attempt i).id) t.world.bsos ∧ t.round = s.round ∧
      Ready (W.attempt i) t.world := by
  induction works with
  | refl => exact ⟨holds, rfl, ready⟩
  | @tail m t before one ih =>
    obtain ⟨now, round, here⟩ := ih
    have later := (sound.works before).work one
    obtain ⟨sameRound, active, change⟩ := (sound.works before).work_view i one
    have there : Ready (W.attempt i) t.world :=
      ⟨later.named, active ▸ here.sender, active ▸ here.receiver⟩
    refine ⟨?_, sameRound.trans round, there⟩
    obtain ⟨same, apart⟩ | ⟨item, rest, items, ended, view, world⟩ |
      ⟨item, rest, a, r, again, items, agent, running, done, view, world⟩ := change
    · rw [same]
      exact stable _ _ _ now apart
    · rw [view, world]
      exact skip _ _ item rest now items ended
    · rw [view, world]
      rw [round] at done
      exact work m before here _ item rest a r again now items agent running done

/-- The rest of a round, for one transfer: a property that its items keep holds when all of them
have been handled; then its messages arrive, and its agent is woken if its deadline has passed. -/
theorem Ends.view (ends : Ends cfg owner s t) :
    t.round = s.round + 1 ∧ Ready (W.attempt i) t.world ∧
      ∃ v arrived, P v t.world.bsos ∧ v.items = [] ∧ (∀ e, e ∈ arrived ↔ e ∈ v.sent) ∧
        t.view owner (W.attempt i).id =
          (v.arrive arrived).wake cfg s.round (W.attempt i).id := by
  obtain @⟨m, events, ids, works, finished, delivered, once, all, rfl⟩ := ends
  obtain ⟨now, time, here⟩ := sound.works_view i ready stable skip work holds works
  have world : (m.finish cfg owner events ids).world = m.world :=
    Sim.wakeDeadlines_world (s := m.drain events) ids
  have homed : ∀ ev ∈ events, owner ev.2.transferID = ev.1 :=
    fun ev mem => (sound.works works).transport ev ((delivered ev).mp mem)
  have arrived : (m.drain events).view owner (W.attempt i).id = _ := Sim.view_drain homed
  refine ⟨congrArg (· + 1) time, world ▸ here, m.view owner (W.attempt i).id,
    (events.map Prod.snd).filter fun e => e.transferID = (W.attempt i).id, world ▸ now, ?_,
    fun e => ?_, ?_⟩
  · simp [Sim.view, finished]
  · have moved : ∀ e, e ∈ events.map Prod.snd ↔ e ∈ m.transport.map Prod.snd := by
      intro e
      simp only [List.mem_map, delivered]
    simp only [Sim.view, List.mem_filter, moved]
  · have same : (m.finish cfg owner events ids).view owner (W.attempt i).id =
        ((m.drain events).wakeDeadlines cfg owner ids).view owner (W.attempt i).id := rfl
    by_cases mem : (W.attempt i).id ∈ ids
    · rw [same, Sim.view_wakeDeadlines once mem, arrived]
      exact congrArg (fun r => View.wake cfg r _ _) time
    · have gone : m.agents (W.attempt i).id = none := by
        by_contra here
        exact mem (all _ (Option.isSome_iff_ne_none.mpr here))
      rw [same, Sim.view_wakeDeadlines_other mem, arrived]
      simp [View.wake, View.arrive, Sim.view, gone]

end Kept

end OctetDB.Trust
