import OctetDB.Trust.Records

/-!
# One place after the other

From its admission on, a transfer takes one place after the other, a round each: the amount is
reserved, offered, accepted, committed by the sender, committed by the receiver and acknowledged.

An answer takes two rounds. An agent that is woken while the answer is already in the queue of its
worker goes back to where it makes the offer, ignores the answer and makes the offer again.
-/

namespace OctetDB.Trust

/-- Where a transfer can stand between two rounds. -/
inductive Place
  | early | admitted | reserved | offered | accepted | again | agreed | committed | confirming
  | acknowledged
  | ended (phase : AgentPhase)

/-- The phases in which an agent can be at a place. -/
def Place.phases : Place → List AgentPhase
  | .early => [.created, .trustCollect]
  | .admitted => [.trustAdmitted]
  | .reserved | .again => [.offerReceiver]
  | .offered | .accepted => [.awaitAccept]
  | .agreed => [.commitSender]
  | .committed => [.commitReceiver]
  | .confirming | .acknowledged => [.awaitAcknowledge]
  | .ended phase => [phase]

/-- The agent waits to be stepped, after some other items. -/
def View.stepping (a : Attempt) (x : TransactionAgent) (before : List WorkItem) : View :=
  ⟨some x, [], before ++ [a.stepItem], true, []⟩

/-- A message waits for the agent. It may have come several times. -/
def View.notified (x : TransactionAgent) (e : Envelope) (k : Nat) : View :=
  ⟨some x, [], List.replicate (k + 1) e.item, false, []⟩

/-- What a place says about the agent, its queue and the records. A deadline is `retryDelay + 1`
rounds after the one in which the message was sent. -/
def Stands (cfg : Config) (a : Attempt) (round : Int) (x : TransactionAgent) (v : View)
    (bsos : String → BSO) : Place → Prop
  | .early | .admitted => v = .stepping a x [] ∧ Records bsos a none none
  | .reserved => v = .stepping a x [] ∧ Records bsos a (some .reserved) none
  | .offered =>
    x.nextLogicalDeadline = round + cfg.retryDelay ∧ ∃ k inc, v = .notified x a.offerMessage k ∧
      (inc = none ∨ inc = some .accepted) ∧ Records bsos a (some .reserved) inc
  | .accepted =>
    ∃ k, v = .notified x a.acceptMessage k ∧ Records bsos a (some .reserved) (some .accepted)
  | .again =>
    ∃ k, v = .stepping a x (List.replicate k a.acceptMessage.item) ∧
      Records bsos a (some .reserved) (some .accepted)
  | .agreed => v = .stepping a x [] ∧ Records bsos a (some .reserved) (some .accepted)
  | .committed => v = .stepping a x [] ∧ Records bsos a (some .committed) (some .accepted)
  | .confirming =>
    x.nextLogicalDeadline = round + cfg.retryDelay ∧ ∃ k, v = .notified x a.commitMessage k ∧
      Records bsos a (some .committed) (some .accepted)
  | .acknowledged =>
    ∃ k, v = .notified x a.ackMessage k ∧ Records bsos a (some .committed) (some .committed)
  | .ended phase => phase.terminal

theorem exists_replicate {α : Type} {l : List α} {x : α} (only : ∀ y, y ∈ l ↔ y = x) :
    ∃ k, l = List.replicate (k + 1) x := by
  cases l with
  | nil => simpa using only x
  | cons y rest =>
    refine ⟨rest.length, List.eq_replicate_iff.mpr ⟨rfl, fun z mem => (only z).mp mem⟩⟩

/-- A path leaves a set in one of its steps. -/
theorem exists_leaves {α : Type} {r : α → α → Prop} {P : α → Prop} {a b : α}
    (path : Relation.ReflTransGen r a b) (first : P a) (last : ¬ P b) :
    ∃ m m', Relation.ReflTransGen r a m ∧ P m ∧ r m m' ∧ ¬ P m' ∧ Relation.ReflTransGen r m' b := by
  induction path using Relation.ReflTransGen.head_induction_on with
  | refl => exact absurd first last
  | @head a c one rest ih =>
    by_cases here : P c
    · obtain ⟨m, m', before, inside, leaves⟩ := ih here
      exact ⟨m, m', .head one before, inside, leaves⟩
    · exact ⟨a, c, .refl, first, one, here, rest⟩

/-! ## Deadlines -/

/-- The deadlines of a round are kept as they are. -/
structure Config.Fits (cfg : Config) (round : Int) : Prop where
  positive : 1 ≤ cfg.retryDelay
  started : 0 ≤ round
  small : round + cfg.retryDelay + 1 < 2 ^ 63

theorem Config.Fits.deadline {cfg : Config} {round : Int} (fits : cfg.Fits round) :
    cfg.deadline round = round + cfg.retryDelay + 1 :=
  goInt_eq (by have := fits.positive; have := fits.started; omega) fits.small

theorem View.wake_asleep {cfg : Config} {round : Int} {id : String} {v : View}
    (asleep : ∀ x, v.agent = some x → x.wakeDeadline cfg round = none) :
    v.wake cfg round id = v := by
  unfold View.wake
  cases agent : v.agent with
  | none => rfl
  | some x => simp [asleep x agent]

theorem TransactionAgent.wakeDeadline_working {cfg : Config} {round : Int} {x : TransactionAgent}
    (working : x.phase ≠ .awaitAccept ∧ x.phase ≠ .awaitAcknowledge) :
    x.wakeDeadline cfg round = none :=
  if_pos (.inl working)

theorem TransactionAgent.wakeDeadline_early {cfg : Config} {round : Int} {x : TransactionAgent}
    (fits : cfg.Fits round) (early : round + 1 < x.nextLogicalDeadline) :
    x.wakeDeadline cfg round = none := by
  obtain ⟨positive, started, small⟩ := fits
  exact if_pos (.inr (by rwa [goInt_eq (by omega) (by omega)]))

theorem View.idle {cfg : Config} {v : View} {arrived : List Envelope} {round : Int} {id : String}
    (quiet : v.sent = []) (sent : ∀ e, e ∈ arrived ↔ e ∈ v.sent)
    (working : ∀ x, v.agent = some x → x.phase ≠ .awaitAccept ∧ x.phase ≠ .awaitAcknowledge) :
    (v.arrive arrived).wake cfg round id = v := by
  have empty : arrived = [] := by
    rw [List.eq_nil_iff_forall_not_mem]
    intro e mem
    rw [sent, quiet] at mem
    cases mem
  have same : v.arrive arrived = v := by
    cases v
    simp_all [View.arrive]
  rw [same, View.wake_asleep fun x agent => TransactionAgent.wakeDeadline_working (working x agent)]

section Arrivals

variable {cfg : Config} {x : TransactionAgent} {l arrived : List Envelope} {e : Envelope}
  {round : Int} {id : String} {v : View}

/-- A message arrives, and the agent is not woken. -/
theorem View.delivers
    (after : v = (View.arrive ⟨some x, [], [], false, l⟩ arrived).wake cfg round id)
    (sent : ∀ f, f ∈ arrived ↔ f ∈ l) (only : ∀ f, f ∈ l ↔ f = e)
    (asleep : x.wakeDeadline cfg round = none) : ∃ k, v = .notified x e k := by
  obtain ⟨k, rfl⟩ := exists_replicate fun f => (sent f).trans (only f)
  refine ⟨k, after.trans ((View.wake_asleep fun y agent => ?_).trans ?_)⟩
  · cases agent
    exact asleep
  · simp [View.arrive, View.notified]

/-- A message arrives, and the agent is woken before it is handled. -/
theorem View.delivers_late {a : Attempt} {y : TransactionAgent}
    (after : v = (View.arrive ⟨some x, [], [], false, l⟩ arrived).wake cfg round a.id)
    (sent : ∀ f, f ∈ arrived ↔ f ∈ l) (only : ∀ f, f ∈ l ↔ f = e)
    (woken : x.wakeDeadline cfg round = some y) :
    ∃ k, v = .stepping a y (List.replicate k e.item) := by
  obtain ⟨k, rfl⟩ := exists_replicate fun f => (sent f).trans (only f)
  exact ⟨k + 1, by simp [after, View.wake, View.arrive, View.stepping, Attempt.stepItem, woken]⟩

end Arrivals

/-! ## Steps and messages in a round -/

section Places

variable {n : Nat} {cfg : Config} {W : Workload} {initial : String → Int} {owner : String → Fin n}
  {s m m' t : Sim n} {i : Fin W.count} {x : TransactionAgent} {out inc : Option TransferState}
  {before : List WorkItem}

/-- In the round from `s` to `t`, the worker of the transfer comes to its step in the state `m`,
and has taken it in `m'`. -/
structure Stepping (cfg : Config) (owner : String → Fin n) (a : Attempt) (s m m' t : Sim n) :
    Prop where
  before : Relation.ReflTransGen (Work cfg) s.take m
  waits : a.stepItem ∈ (m.workers (owner a.id)).items
  work : Work cfg m m'
  taken : a.stepItem ∉ (m'.workers (owner a.id)).items
  after : Ends cfg owner m' t

/-- Nothing is left to do for the transfer in a round. -/
theorem Ends.idle {Q : (String → BSO) → Prop} (ends : Ends cfg owner s t)
    (sound : s.Sound cfg W initial owner) (ready : Ready (W.attempt i) s.world)
    (none_ : (s.view owner (W.attempt i).id).items = [])
    (stable : ∀ bsos bsos', Q bsos →
      (∀ name, (bsos name).Apart (W.attempt i).id (bsos' name)) → Q bsos')
    (holds : Q s.world.bsos) :
    t.round = s.round + 1 ∧ Ready (W.attempt i) t.world ∧ Q t.world.bsos ∧ ∃ arrived,
      (∀ e, e ∈ arrived ↔ e ∈ (s.view owner (W.attempt i).id).sent) ∧
      t.view owner (W.attempt i).id =
        ((s.view owner (W.attempt i).id).arrive arrived).wake cfg s.round (W.attempt i).id := by
  obtain ⟨time, there, v, arrived, ⟨rfl, q⟩, -, sent, after⟩ := ends.view
    (P := fun v bsos => v = s.view owner (W.attempt i).id ∧ Q bsos) sound i ready
    (fun v bsos bsos' q apart => ⟨q.1, stable bsos bsos' q.2 apart⟩)
    (by
      rintro v bsos item rest ⟨rfl, -⟩ some_ -
      cases none_.symm.trans some_)
    (by
      rintro m - - v item rest y r again ⟨rfl, -⟩ some_ - - -
      cases none_.symm.trans some_)
    ⟨rfl, holds⟩
  exact ⟨time, there, q, arrived, sent, after⟩

theorem Sim.mem_view_items {item : WorkItem} :
    item ∈ (s.view owner item.transferID).items ↔
      item ∈ (s.workers (owner item.transferID)).items := by
  simp [Sim.view]

/-- The step of an agent, after other items that it ignores: it is taken with what is recorded of
the transfer, and what it leads to stays until the end of the round. -/
theorem Stepping.stepped (stepping : Stepping cfg owner (W.attempt i) s m m' t)
    (sound : s.Sound cfg W initial owner) (ready : Ready (W.attempt i) s.world)
    (view : s.view owner (W.attempt i).id = .stepping (W.attempt i) x before)
    (running : x.phase.terminal = false) (records : Records s.world.bsos (W.attempt i) out inc)
    (ignored : ∀ item ∈ before, ∀ w, workOn cfg w x item s.round =
      .ok ({ world := w, agent := x }, false)) :
    Ready (W.attempt i) m.world ∧ Records m.world.bsos (W.attempt i) out inc ∧ ∃ r again,
      workOn cfg m.world x (W.attempt i).stepItem s.round = .ok (r, again) ∧
      ∀ Q : (String → BSO) → Prop, (∀ bsos bsos', Q bsos →
          (∀ name, (bsos name).Apart (W.attempt i).id (bsos' name)) → Q bsos') →
        Q r.world.bsos → t.round = s.round + 1 ∧ Ready (W.attempt i) t.world ∧ Q t.world.bsos ∧
        ∃ arrived, (∀ e, e ∈ arrived ↔ e ∈ r.sent) ∧ t.view owner (W.attempt i).id =
          ((View.put ⟨some x, [], [], false, []⟩ (W.attempt i).id r again).arrive arrived).wake cfg
            s.round (W.attempt i).id := by
  obtain ⟨works, waits, work, taken, after⟩ := stepping
  -- Until the step is taken, it is still to come, with some of the other items before it.
  obtain ⟨here, time, ready⟩ := sound.take.works_view
    (P := fun v bsos => (∃ left, left ⊆ before ∧ v = ⟨some x, left ++ [(W.attempt i).stepItem],
        [], false, []⟩ ∧ Records bsos (W.attempt i) out inc) ∨ v.items = []) i ready
    (by
      rintro v bsos bsos' (⟨left, sub, eq, records⟩ | items) apart
      · exact .inl ⟨left, sub, eq, records.apart apart⟩
      · exact .inr items)
    (by
      rintro v bsos item rest (⟨left, sub, rfl, records⟩ | items) some_ ended
      · simp [ended x rfl] at running
      · cases items.symm.trans some_)
    (by
      rintro m - - v item rest y r again (⟨left, sub, rfl, records⟩ | items) some_ agent - done
      · cases agent
        cases left with
        | nil =>
          cases some_
          exact .inr rfl
        | cons other left =>
          cases some_
          rw [List.cons_subset] at sub
          rw [show s.take.round = s.round from rfl, ignored _ sub.1] at done
          cases done
          exact .inl ⟨left, sub.2, rfl, records⟩
      · cases items.symm.trans some_)
    (by
      refine .inl ⟨before, List.Subset.refl _, ?_, records⟩
      rw [Sim.view_take, view]
      simp [View.stepping, View.take, Attempt.stepItem])
    works
  have waits : (W.attempt i).stepItem ∈ (m.view owner (W.attempt i).id).items :=
    Sim.mem_view_items.mpr waits
  have taken : (W.attempt i).stepItem ∉ (m'.view owner (W.attempt i).id).items :=
    fun mem => taken (Sim.mem_view_items.mp mem)
  obtain ⟨left, -, now, records⟩ | items := here
  swap
  · rw [items] at waits
    cases waits
  have sound := sound.take.works works
  obtain ⟨same, active, change⟩ := sound.work_view i work
  have sound' := sound.work work
  have ready' : Ready (W.attempt i) m'.world :=
    ⟨sound'.named, active ▸ ready.sender, active ▸ ready.receiver⟩
  have time' : m'.round = s.round := same.trans time
  obtain ⟨view', -⟩ | ⟨item, rest, -, ended, -⟩ | ⟨item, rest, y, r, again, items, agent, -, done,
    view', world⟩ := change
  · exact absurd (view' ▸ waits) taken
  · simp [ended x (by rw [now])] at running
  rw [now] at items agent view'
  cases agent
  cases left with
  | nil =>
    cases items
    rw [time] at done
    refine ⟨ready, records, r, again, done, fun Q stable q => ?_⟩
    obtain ⟨end_, there, q, arrived, sent, after⟩ :=
      after.idle sound' ready' (by rw [view']; rfl) stable (by rwa [world])
    rw [view', time'] at after
    rw [view'] at sent
    exact ⟨by rw [end_, time'], there, q, arrived, sent, after⟩
  | cons other left =>
    cases items
    exact absurd (by rw [view']; simp [View.put]) taken

/-- The worker of a transfer that waits to be stepped comes to the step. -/
theorem Round.stepping (round : Round cfg owner s t)
    (view : s.view owner (W.attempt i).id = .stepping (W.attempt i) x before) :
    ∃ m m', Stepping cfg owner (W.attempt i) s m m' t := by
  obtain ⟨works, finished, delivered, once, all, rfl⟩ := round
  have waits : (W.attempt i).stepItem ∈ (s.take.workers (owner (W.attempt i).id)).items := by
    refine Sim.mem_view_items.mp ?_
    rw [show (W.attempt i).stepItem.transferID = (W.attempt i).id from rfl, Sim.view_take, view]
    simp [View.take, View.stepping]
  obtain ⟨m, m', before, waits, work, taken, after⟩ := exists_leaves works
    (P := fun m => (W.attempt i).stepItem ∈ (m.workers (owner (W.attempt i).id)).items) waits
    (by simp [finished])
  exact ⟨m, m', before, waits, work, taken, after, finished, delivered, once, all, rfl⟩

section Messages

variable {k : Nat} {e : Envelope}

/-- A round in which a message arrives, possibly several times. -/
theorem Round.messaged {Q : View → (String → BSO) → Prop} (round : Round cfg owner s t)
    (sound : s.Sound cfg W initial owner) (ready : Ready (W.attempt i) s.world)
    (view : s.view owner (W.attempt i).id = .notified x e k)
    (running : x.phase.terminal = false) (records : Records s.world.bsos (W.attempt i) out inc)
    (stable : ∀ v bsos bsos', Q v bsos →
      (∀ name, (bsos name).Apart (W.attempt i).id (bsos' name)) → Q v bsos')
    (skip : ∀ v bsos rest, Q v bsos → Q { v with items := rest } bsos)
    (first : ∀ w rest r again, Ready (W.attempt i) w → Records w.bsos (W.attempt i) out inc →
      workOn cfg w x e.item s.round = .ok (r, again) →
      Q (View.put ⟨some x, rest, [], false, []⟩ (W.attempt i).id r again) r.world.bsos)
    (more : ∀ w v y r again, Ready (W.attempt i) w → Q v w.bsos → v.agent = some y →
      y.phase.terminal = false → workOn cfg w y e.item s.round = .ok (r, again) →
      Q (View.put v (W.attempt i).id r again) r.world.bsos) :
    t.round = s.round + 1 ∧ Ready (W.attempt i) t.world ∧
      ∃ v arrived, Q v t.world.bsos ∧ v.items = [] ∧ (∀ e, e ∈ arrived ↔ e ∈ v.sent) ∧
        t.view owner (W.attempt i).id =
          (v.arrive arrived).wake cfg s.round (W.attempt i).id := by
  obtain ⟨time, there, v, arrived, here, items, sent, after⟩ := Ends.view
    (P := fun v bsos => (v = ⟨some x, List.replicate (k + 1) e.item, [], false, []⟩ ∧
      Records bsos (W.attempt i) out inc) ∨
      (∃ j, v.items = List.replicate j e.item) ∧ Q v bsos) sound.take i ready
    (by
      rintro v bsos bsos' (⟨eq, records⟩ | ⟨items, q⟩) apart
      · exact .inl ⟨eq, records.apart apart⟩
      · exact .inr ⟨items, stable v bsos bsos' q apart⟩)
    (by
      rintro v bsos item rest (⟨rfl, records⟩ | ⟨⟨j, items⟩, q⟩) some_ ended
      · simp [ended x rfl] at running
      · cases j with
        | zero => cases items.symm.trans some_
        | succ j =>
          cases items.symm.trans some_
          exact .inr ⟨⟨j, rfl⟩, skip v bsos _ q⟩)
    (by
      rintro m - ready v item rest y r again (⟨rfl, records⟩ | ⟨⟨j, items⟩, q⟩) some_ agent
        running done
      · cases agent
        cases some_
        exact .inr ⟨⟨k, rfl⟩, first m.world _ r again ready records done⟩
      · cases j with
        | zero => cases items.symm.trans some_
        | succ j =>
          cases items.symm.trans some_
          refine .inr ⟨⟨j, rfl⟩, ?_⟩
          exact more m.world _ y r again ready (skip v _ _ q) agent running done)
    (by
      refine .inl ⟨?_, records⟩
      rw [Sim.view_take, view]
      simp [View.take, View.notified]) round
  obtain ⟨rfl, -⟩ | ⟨-, q⟩ := here
  · simp at items
  · exact ⟨time, there, v, arrived, q, items, sent, after⟩

/-- Every message is answered in the same way, and the agent goes on waiting. -/
theorem Round.replied {f : Envelope} {inc' : Option TransferState} (round : Round cfg owner s t)
    (sound : s.Sound cfg W initial owner) (ready : Ready (W.attempt i) s.world)
    (view : s.view owner (W.attempt i).id = .notified x e k)
    (running : x.phase.terminal = false) (records : Records s.world.bsos (W.attempt i) out inc)
    (replies : ∀ w state, state = inc ∨ state = inc' → Ready (W.attempt i) w →
      Records w.bsos (W.attempt i) out state → ∃ w', Records w'.bsos (W.attempt i) out inc' ∧
        workOn cfg w x e.item s.round =
          .ok ({ world := w', agent := x, sent := [f] }, false)) :
    t.round = s.round + 1 ∧ Ready (W.attempt i) t.world ∧
      Records t.world.bsos (W.attempt i) out inc' ∧ ∃ l arrived, (∀ g, g ∈ arrived ↔ g ∈ l) ∧
      (∀ g, g ∈ l ↔ g = f) ∧ t.view owner (W.attempt i).id =
        (View.arrive ⟨some x, [], [], false, l⟩ arrived).wake cfg s.round (W.attempt i).id := by
  obtain ⟨time, there, v, arrived, ⟨agent, queue, queued, only, records⟩, items, sent, after⟩ :=
    round.messaged
    (Q := fun v bsos => v.agent = some x ∧ v.queue = [] ∧ v.queued = false ∧
      (∀ g, g ∈ v.sent ↔ g = f) ∧ Records bsos (W.attempt i) out inc')
    sound ready view running records
    (fun v bsos bsos' q apart => ⟨q.1, q.2.1, q.2.2.1, q.2.2.2.1, q.2.2.2.2.apart apart⟩)
    (fun v bsos rest q => q)
    (fun w rest r again ready records done => by
      obtain ⟨w', records, reply⟩ := replies w inc (.inl rfl) ready records
      rw [reply] at done
      cases done
      exact ⟨rfl, rfl, rfl, by simp [View.put], records⟩)
    (fun w v y r again ready q agent _ done => by
      obtain ⟨same, queue, queued, only, records⟩ := q
      rw [same, Option.some.injEq] at agent
      subst agent
      obtain ⟨w', records, reply⟩ := replies w inc' (.inr rfl) ready records
      rw [reply] at done
      cases done
      exact ⟨rfl, by simp [View.put, queue], by simp [View.put, queued], by simp [View.put, only],
        records⟩)
  obtain ⟨_, _, _, _, l⟩ := v
  cases agent
  cases queue
  cases queued
  cases items
  exact ⟨time, there, records, l, arrived, sent, only, after⟩

end Messages

/-! ## The places in their order -/

/-- A transfer stands at a place, in a run. -/
structure Sim.At (cfg : Config) (W : Workload) (initial : String → Int) (owner : String → Fin n)
    (i : Fin W.count) (place : Place) (s : Sim n) : Prop where
  sound : s.Sound cfg W initial owner
  ready : Ready (W.attempt i) s.world
  stands : ∃ x, x.attempt = W.attempt i ∧ x.phase ∈ place.phases ∧
    (s.view owner (W.attempt i).id).agent = some x ∧
    Stands cfg (W.attempt i) s.round x (s.view owner (W.attempt i).id) s.world.bsos place

theorem Sim.At.of_view {place : Place} {v : View} (sound : t.Sound cfg W initial owner)
    (ready : Ready (W.attempt i) t.world) (view : t.view owner (W.attempt i).id = v)
    (agent : v.agent = some x) (own : x.attempt = W.attempt i) (phase : x.phase ∈ place.phases)
    (stands : Stands cfg (W.attempt i) t.round x v t.world.bsos place) :
    t.At cfg W initial owner i place := by
  subst view
  exact ⟨sound, ready, x, own, phase, agent, stands⟩

/-- In a round, the sender has less than the amount when the worker comes to the step of the
transfer. -/
def Uncovered (cfg : Config) (owner : String → Fin n) (a : Attempt) (s t : Sim n) : Prop :=
  ∃ m m', Stepping cfg owner a s m m' t ∧ (m.world.bsos a.fromBSO).balance < a.amount

theorem Sim.At.trust (here : s.At cfg W initial owner i .early) (round : Round cfg owner s t) :
    t.At cfg W initial owner i .early ∨ t.At cfg W initial owner i .admitted ∨
      t.At cfg W initial owner i (.ended .rejected) := by
  obtain ⟨sound, ready, x, own, phase, -, view, records⟩ := here
  have phase : x.phase = .created ∨ x.phase = .trustCollect := by simpa [Place.phases] using phase
  obtain ⟨m, m', stepping⟩ := round.stepping view
  obtain ⟨-, records, r, again, done, after⟩ := stepping.stepped sound ready view
    (by obtain phase | phase := phase <;> rw [phase] <;> rfl) records (by simp)
  obtain ⟨books, own, early, quiet, rfl⟩ := workOn_trust own phase done
  obtain ⟨-, there, records, arrived, sent, after⟩ :=
    after (Records · _ none none) (fun _ _ => Records.apart) (books.1 ▸ records)
  rw [View.idle (by simp [View.put, quiet]) (by simpa [View.put] using sent) (by
    rintro y ⟨⟩
    obtain phase | phase | phase | phase := early <;> simp [phase])] at after
  have stands {place : Place} (here : r.agent.phase ∈ place.phases)
      (running : r.agent.phase ≠ .rejected)
      (same : Stands cfg (W.attempt i) t.round r.agent (.stepping (W.attempt i) r.agent [])
        t.world.bsos place) : t.At cfg W initial owner i place := by
    have view : t.view owner (W.attempt i).id = .stepping (W.attempt i) r.agent [] := by
      rw [after]
      simp [View.put, running, quiet, View.stepping, Attempt.stepItem]
    exact .of_view (sound.round round) there view rfl own here same
  obtain phase | phase | phase | phase := early
  · exact .inl (stands (by simp [phase, Place.phases]) (by simp [phase]) ⟨rfl, records⟩)
  · exact .inl (stands (by simp [phase, Place.phases]) (by simp [phase]) ⟨rfl, records⟩)
  · exact .inr (.inl (stands (by simp [phase, Place.phases]) (by simp [phase]) ⟨rfl, records⟩))
  · exact .inr (.inr (.of_view (sound.round round) there after rfl own
      (by simp [phase, Place.phases]) rfl))

/-- The reservation is granted exactly if the balance covers the amount in that very state. -/
theorem Sim.At.asked (here : s.At cfg W initial owner i .admitted) (proper : (W.attempt i).Proper)
    (stepping : Stepping cfg owner (W.attempt i) s m m' t) :
    (W.attempt i).amount ≤ (m.world.bsos (W.attempt i).fromBSO).balance ∧
        t.At cfg W initial owner i .reserved ∨
      (m.world.bsos (W.attempt i).fromBSO).balance < (W.attempt i).amount ∧
        t.At cfg W initial owner i (.ended .rejected) := by
  obtain ⟨sound, ready, x, own, phase, -, view, records⟩ := here
  have phase : x.phase = .trustAdmitted := by simpa [Place.phases] using phase
  have later : t.Sound cfg W initial owner :=
    ((sound.take.works stepping.before).work stepping.work).ends stepping.after
  obtain ⟨ready, records, r, again, done, after⟩ := stepping.stepped sound ready
    view (by rw [phase]; rfl) records (by simp)
  by_cases covered : (W.attempt i).amount ≤ (m.world.bsos (W.attempt i).fromBSO).balance
  · obtain ⟨granted, records⟩ := records.reserve_covered proper s.round (ready.named _) covered
    obtain ⟨refused, -⟩ | ⟨-, rfl, rfl⟩ := workOn_trustAdmitted own phase done
    · cases granted.symm.trans refused
    · obtain ⟨-, there, records, arrived, sent, after⟩ :=
        after (Records · _ (some .reserved) none) (fun _ _ => Records.apart) records
      rw [View.idle rfl sent (by simp [View.put])] at after
      exact .inl ⟨covered, .of_view later there after rfl own (.head _) ⟨rfl, records⟩⟩
  · have refused := records.reserve_refused s.round (not_le.mp covered)
    obtain ⟨-, rfl, rfl⟩ | ⟨granted, -⟩ := workOn_trustAdmitted own phase done
    · obtain ⟨-, there, -, arrived, sent, after⟩ :=
        after (fun _ => True) (fun _ _ _ _ => trivial) trivial
      rw [View.idle rfl sent (by simp [View.put])] at after
      exact .inr ⟨not_le.mp covered, .of_view later there after rfl own (.head _) rfl⟩
    · exact absurd refused granted

theorem Sim.At.reserved (here : s.At cfg W initial owner i .admitted)
    (proper : (W.attempt i).Proper) (round : Round cfg owner s t) :
    ¬ Uncovered cfg owner (W.attempt i) s t ∧ t.At cfg W initial owner i .reserved ∨
      Uncovered cfg owner (W.attempt i) s t ∧ t.At cfg W initial owner i (.ended .rejected) := by
  obtain ⟨x, -, -, -, view, -⟩ := here.stands
  obtain ⟨m, m', stepping⟩ := round.stepping view
  obtain ⟨-, reserved⟩ | ⟨few, rejected⟩ := here.asked proper stepping
  · refine .inl ⟨?_, reserved⟩
    -- Any other way to the same end would have found the same balance.
    rintro ⟨m, m', stepping, few⟩
    obtain ⟨enough, -⟩ | ⟨-, rejected⟩ := here.asked proper stepping
    · omega
    · obtain ⟨y, -, phase, agent, -⟩ := reserved.stands
      obtain ⟨z, -, phase', agent', -⟩ := rejected.stands
      cases agent.symm.trans agent'
      simp [Place.phases] at phase phase'
      cases phase.symm.trans phase'
  · exact .inr ⟨⟨m, m', stepping, few⟩, rejected⟩

/-- The agent makes an offer, whether or not one was accepted before. -/
theorem Sim.offers (sound : s.Sound cfg W initial owner) (ready : Ready (W.attempt i) s.world)
    (fits : cfg.Fits s.round) (own : x.attempt = W.attempt i)
    (phase : x.phase ∈ [AgentPhase.offerReceiver]) {k : Nat}
    (view : s.view owner (W.attempt i).id = .stepping (W.attempt i) x
      (List.replicate k (W.attempt i).acceptMessage.item))
    (early : inc = none ∨ inc = some .accepted)
    (records : Records s.world.bsos (W.attempt i) (some .reserved) inc)
    (round : Round cfg owner s t) : t.At cfg W initial owner i .offered := by
  have phase := List.mem_singleton.mp phase
  obtain ⟨m, m', stepping⟩ := round.stepping view
  obtain ⟨-, records, r, again, done, after⟩ := stepping.stepped sound ready view
    (by rw [phase]; rfl) records (by
      intro item mem w
      rw [List.eq_of_mem_replicate mem]
      exact workOn_acceptMessage_late (by simp [phase]))
  rw [workOn_offerReceiver own phase, fits.deadline] at done
  cases done
  obtain ⟨time, there, records, arrived, sent, after⟩ :=
    after (Records · _ (some .reserved) inc) (fun _ _ => Records.apart) records
  obtain ⟨k, view⟩ := View.delivers after sent (fun f => List.mem_singleton)
    (TransactionAgent.wakeDeadline_early fits (by have := fits.positive; dsimp only; omega))
  exact .of_view (sound.round round) there view rfl own (.head _)
    ⟨by dsimp only; omega, k, inc, rfl, early, records⟩

theorem Sim.At.offered (here : s.At cfg W initial owner i .reserved)
    (fits : cfg.Fits s.round) (round : Round cfg owner s t) :
    t.At cfg W initial owner i .offered := by
  obtain ⟨sound, ready, x, own, phase, -, view, records⟩ := here
  exact Sim.offers sound ready fits own phase (k := 0) view (.inl rfl) records round

/-- An agent that was woken too early makes the offer again. -/
theorem Sim.At.offered_again (here : s.At cfg W initial owner i .again)
    (fits : cfg.Fits s.round) (round : Round cfg owner s t) :
    t.At cfg W initial owner i .offered := by
  obtain ⟨sound, ready, x, own, phase, -, k, view, records⟩ := here
  exact Sim.offers sound ready fits own phase view (.inr rfl) records round

/-- The offer is accepted, and the acceptance is on its way. -/
theorem Sim.At.answered (here : s.At cfg W initial owner i .offered)
    (proper : (W.attempt i).Proper) (round : Round cfg owner s t) :
    Ready (W.attempt i) t.world ∧ ∃ x l arrived,
      x.attempt = W.attempt i ∧ x.phase = .awaitAccept ∧
      x.nextLogicalDeadline = s.round + cfg.retryDelay ∧
      Records t.world.bsos (W.attempt i) (some .reserved) (some .accepted) ∧
      (∀ f, f ∈ arrived ↔ f ∈ l) ∧ (∀ f, f ∈ l ↔ f = (W.attempt i).acceptMessage) ∧
      t.view owner (W.attempt i).id =
        (View.arrive ⟨some x, [], [], false, l⟩ arrived).wake cfg s.round (W.attempt i).id := by
  obtain ⟨sound, ready, x, own, phase, -, deadline, k, inc, view, early, records⟩ := here
  have phase := List.mem_singleton.mp phase
  obtain ⟨-, there, records, l, arrived, sent, only, after⟩ := round.replied sound ready view
    (by rw [phase]; rfl) records fun w state known ready records => by
      obtain ⟨accepted, records⟩ := records.offer_accepted proper (known.elim (· ▸ early) .inr)
      exact ⟨_, records, workOn_offerMessage own proper ready accepted phase⟩
  exact ⟨there, x, l, arrived, own, phase, deadline, records, sent, only, after⟩

theorem Sim.At.accepted (here : s.At cfg W initial owner i .offered)
    (proper : (W.attempt i).Proper) (patient : 2 ≤ cfg.retryDelay) (fits : cfg.Fits s.round)
    (round : Round cfg owner s t) : t.At cfg W initial owner i .accepted := by
  obtain ⟨there, x, l, arrived, own, phase, deadline, records, sent, only, after⟩ :=
    here.answered proper round
  obtain ⟨k, view⟩ := View.delivers after sent only
    (TransactionAgent.wakeDeadline_early fits (by omega))
  exact .of_view (here.sound.round round) there view rfl own
    (by simp [phase, Place.phases]) ⟨k, rfl, records⟩

/-- With a retry delay of one round, the agent is woken in the very round in which the acceptance is
sent. -/
theorem Sim.At.woken (here : s.At cfg W initial owner i .offered)
    (proper : (W.attempt i).Proper) (hasty : cfg.retryDelay = 1)
    (expiry : 0 ≤ cfg.reservationExpiry) (fits : cfg.Fits s.round) (round : Round cfg owner s t) :
    t.At cfg W initial owner i .again := by
  obtain ⟨there, x, l, arrived, own, phase, deadline, records, sent, only, after⟩ :=
    here.answered proper round
  obtain ⟨-, started, small⟩ := fits
  have next : goInt (s.round + 1) = s.round + 1 := goInt_eq (by omega) (by omega)
  have since : goInt (s.round - x.nextLogicalDeadline) = -1 := by
    rw [deadline, hasty, sub_add_cancel_left]
    rfl
  have woken : x.wakeDeadline cfg s.round =
      some { x with retryCount := x.retryCount + 1, phase := .offerReceiver } := by
    have late : ¬ ((x.phase ≠ .awaitAccept ∧ x.phase ≠ .awaitAcknowledge) ∨
        goInt (s.round + 1) < x.nextLogicalDeadline) := by
      simp [phase]
      omega
    rw [TransactionAgent.wakeDeadline, if_neg late, since, if_neg (by omega), if_pos phase]
  obtain ⟨k, view⟩ := View.delivers_late after sent only woken
  exact .of_view (here.sound.round round) there view rfl own (.head _)
    ⟨k, rfl, records⟩

theorem Sim.At.agreed (here : s.At cfg W initial owner i .accepted)
    (proper : (W.attempt i).Proper) (round : Round cfg owner s t) :
    t.At cfg W initial owner i .agreed := by
  obtain ⟨sound, ready, x, own, phase, -, k, view, records⟩ := here
  have phase := List.mem_singleton.mp phase
  obtain ⟨-, there, v, arrived, ⟨agent, queue, queued, quiet, records⟩, items, sent, after⟩ :=
    round.messaged
    (Q := fun v bsos => v.agent = some { x with phase := .commitSender } ∧
      v.queue = [(W.attempt i).stepItem] ∧ v.queued = true ∧ v.sent = [] ∧
      Records bsos (W.attempt i) (some .reserved) (some .accepted))
    sound ready view (by rw [phase]; rfl) records
    (fun v bsos bsos' q apart => ⟨q.1, q.2.1, q.2.2.1, q.2.2.2.1, q.2.2.2.2.apart apart⟩)
    (fun v bsos rest q => q)
    (fun w rest r again ready records done => by
      rw [workOn_acceptMessage proper ready phase] at done
      cases done
      exact ⟨rfl, rfl, rfl, rfl, records⟩)
    (fun w v y r again ready q agent _ done => by
      obtain ⟨same, queue, queued, quiet, records⟩ := q
      rw [same, Option.some.injEq] at agent
      subst agent
      rw [workOn_acceptMessage_late (by simp)] at done
      cases done
      exact ⟨rfl, by simp [View.put, queue], by simp [View.put, queued], by simp [View.put, quiet],
        records⟩)
  rw [View.idle quiet sent (by simp [agent])] at after
  obtain ⟨_, _, _, _, _⟩ := v
  cases agent
  cases queue
  cases queued
  cases items
  cases quiet
  exact .of_view (sound.round round) there after rfl own (.head _) ⟨rfl, records⟩

theorem Sim.At.committed (here : s.At cfg W initial owner i .agreed)
    (proper : (W.attempt i).Proper) (round : Round cfg owner s t) :
    t.At cfg W initial owner i .committed := by
  obtain ⟨sound, ready, x, own, phase, -, view, records⟩ := here
  have phase := List.mem_singleton.mp phase
  obtain ⟨m, m', stepping⟩ := round.stepping view
  obtain ⟨-, records, r, again, done, after⟩ :=
    stepping.stepped sound ready view (by rw [phase]; rfl) records (by simp)
  obtain ⟨committed, records⟩ := records.commitSender_committed proper
  rw [workOn_commitSender own phase committed] at done
  cases done
  obtain ⟨-, there, records, arrived, sent, after⟩ :=
    after (Records · _ (some .committed) (some .accepted)) (fun _ _ => Records.apart) records
  rw [View.idle rfl sent (by simp [View.put])] at after
  exact .of_view (sound.round round) there after rfl own (.head _) ⟨rfl, records⟩

theorem Sim.At.confirming (here : s.At cfg W initial owner i .committed)
    (fits : cfg.Fits s.round) (round : Round cfg owner s t) :
    t.At cfg W initial owner i .confirming := by
  obtain ⟨sound, ready, x, own, phase, -, view, records⟩ := here
  have phase := List.mem_singleton.mp phase
  obtain ⟨m, m', stepping⟩ := round.stepping view
  obtain ⟨-, records, r, again, done, after⟩ :=
    stepping.stepped sound ready view (by rw [phase]; rfl) records (by simp)
  rw [workOn_commitReceiver own phase, fits.deadline] at done
  cases done
  obtain ⟨time, there, records, arrived, sent, after⟩ :=
    after (Records · _ (some .committed) (some .accepted)) (fun _ _ => Records.apart) records
  obtain ⟨k, view⟩ := View.delivers after sent (fun f => List.mem_singleton)
    (TransactionAgent.wakeDeadline_early fits (by have := fits.positive; dsimp only; omega))
  exact .of_view (sound.round round) there view rfl own (.head _)
    ⟨by dsimp only; omega, k, rfl, records⟩

theorem Sim.At.acknowledged (here : s.At cfg W initial owner i .confirming)
    (proper : (W.attempt i).Proper) (patient : 2 ≤ cfg.retryDelay) (fits : cfg.Fits s.round)
    (round : Round cfg owner s t) : t.At cfg W initial owner i .acknowledged := by
  obtain ⟨sound, ready, x, own, phase, -, deadline, k, view, records⟩ := here
  have waits := List.mem_singleton.mp phase
  obtain ⟨-, there, records, l, arrived, sent, only, after⟩ := round.replied sound ready view
    (by rw [waits]; rfl) records fun w state known ready records => by
      obtain ⟨committed, records⟩ := records.commitReceiver_committed proper known
      exact ⟨_, records, workOn_commitMessage own proper ready committed waits⟩
  obtain ⟨k, view⟩ := View.delivers after sent only
    (TransactionAgent.wakeDeadline_early fits (by omega))
  exact .of_view (sound.round round) there view rfl own phase ⟨k, rfl, records⟩

theorem Sim.At.done (here : s.At cfg W initial owner i .acknowledged)
    (proper : (W.attempt i).Proper) (round : Round cfg owner s t) :
    t.At cfg W initial owner i (.ended .done) := by
  obtain ⟨sound, ready, x, own, phase, -, k, view, records⟩ := here
  have phase := List.mem_singleton.mp phase
  obtain ⟨-, there, v, arrived, ⟨agent, quiet⟩, items, sent, after⟩ := round.messaged
    (Q := fun v _ => v.agent = some { x with phase := .done, completedRound := s.round } ∧
      v.sent = [])
    sound ready view (by rw [phase]; rfl) records
    (fun v bsos bsos' q _ => q) (fun v bsos rest q => q)
    (fun w rest r again ready records done => by
      rw [workOn_ackMessage proper ready records.ackSender_acknowledged phase] at done
      cases done
      exact ⟨rfl, rfl⟩)
    (fun w v y r again ready q agent running done => by
      rw [q.1, Option.some.injEq] at agent
      subst agent
      cases running)
  rw [View.idle quiet sent (by simp [agent])] at after
  exact .of_view (sound.round round) there after agent own (.head _) rfl

/-- The end of a transfer is the end. -/
theorem Sim.At.ended {phase : AgentPhase} (here : s.At cfg W initial owner i (.ended phase))
    (round : Round cfg owner s t) : t.At cfg W initial owner i (.ended phase) := by
  obtain ⟨sound, ready, x, own, here, agent, terminal⟩ := here
  obtain rfl := List.mem_singleton.mp here
  obtain ⟨-, there, v, arrived, agent', -, sent, after⟩ := Ends.view
    (P := fun v _ => v.agent = some x) sound.take i ready (fun v bsos bsos' q _ => q)
    (fun v bsos item rest q _ _ => q)
    (fun m works ready v item rest y r again q some_ agent running done => by
      cases q.symm.trans agent
      cases terminal.symm.trans running)
    (by rw [Sim.view_take]; exact agent) round
  rw [View.wake_asleep fun y agent => ?_] at after
  · exact .of_view (sound.round round) there after agent' own here terminal
  · cases agent'.symm.trans agent
    exact TransactionAgent.wakeDeadline_working (by
      constructor <;> intro wrong <;> simp [wrong, AgentPhase.terminal, Stands] at terminal)

end Places

end OctetDB.Trust
