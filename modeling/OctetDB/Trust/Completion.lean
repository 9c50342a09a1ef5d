import OctetDB.Trust.Places

/-!
# When a transfer comes to its end

A transfer that was admitted is done eight rounds later, whatever else the workers do, if agents
wait at least two rounds for an answer. With a retry delay of one round every acceptance comes too
late, and the offer is made again and again. All this is as long as the deadlines fit into 64
bits.
-/

namespace OctetDB.Trust

section Runs

variable {n : Nat} {cfg : Config} {W : Workload} {initial : String → Int} {owner : String → Fin n}
  {s t : Sim n} {i : Fin W.count} {x : TransactionAgent}

/-- The agent of the transfer has a property. -/
def Sim.Has (C : TransactionAgent → Prop) (s : Sim n) (id : String) : Prop :=
  ∃ x, s.agents id = some x ∧ C x

variable {C : TransactionAgent → Prop}

/-- A property that items keep, in the form in which a round asks for it. -/
theorem Closed.put (closed : Closed cfg C) {w : World} {v : View} {item : WorkItem}
    {rest : List WorkItem} {r : Handled} {again : Bool} {id : String} {time : Int}
    (has : ∃ x, v.agent = some x ∧ C x) (agent : v.agent = some x)
    (done : workOn cfg w x item time = .ok (r, again)) :
    ∃ y, (View.put { v with items := rest } id r again).agent = some y ∧ C y := by
  obtain ⟨y, same, c⟩ := has
  rw [agent, Option.some.injEq] at same
  subst same
  obtain ⟨r', again', done', c'⟩ : ∃ r again,
      workOn cfg w x item time = .ok (r, again) ∧ C r.agent := closed.work c item
  rw [done', Except.ok.injEq, Prod.mk.injEq] at done
  exact ⟨r.agent, rfl, done.1 ▸ c'⟩

theorem Sim.Has.works (has : s.Has C (W.attempt i).id) (closed : Closed cfg C)
    (sound : s.Sound cfg W initial owner) (ready : Ready (W.attempt i) s.world)
    (works : Relation.ReflTransGen (Work cfg) s.take t) : t.Has C (W.attempt i).id :=
  (sound.take.works_view (P := fun v _ => ∃ x, v.agent = some x ∧ C x) i ready
    (fun _ _ _ c _ => c) (fun _ _ _ _ c _ _ => c)
    (fun _ _ _ _ _ _ _ _ _ c _ agent _ done => closed.put c agent done) has works).1

theorem Sim.Has.round (has : s.Has C (W.attempt i).id) (closed : Closed cfg C)
    (sound : s.Sound cfg W initial owner) (ready : Ready (W.attempt i) s.world)
    (round : Round cfg owner s t) :
    Ready (W.attempt i) t.world ∧ t.Has C (W.attempt i).id := by
  obtain ⟨-, there, v, arrived, ⟨x, agent, c⟩, -, -, after⟩ := Ends.view
    (P := fun v _ => ∃ x, v.agent = some x ∧ C x) sound.take i ready (fun _ _ _ c _ => c)
    (fun _ _ _ _ c _ _ => c)
    (fun _ _ _ _ _ _ _ _ _ c _ agent _ done => closed.put c agent done) has round
  refine ⟨there, ?_⟩
  have now : (t.view owner (W.attempt i).id).agent = t.agents (W.attempt i).id := rfl
  rw [after, View.wake, show (v.arrive arrived).agent = v.agent from rfl, agent,
    Option.bind_some] at now
  cases woken : x.wakeDeadline cfg s.take.round with
  | none =>
    simp only [woken] at now
    exact ⟨x, now.symm.trans agent, c⟩
  | some y =>
    simp only [woken] at now
    exact ⟨y, now.symm, closed.wake c woken⟩

/-- Once all decisions on trust are made, a round comes to its end. -/
theorem Sim.Sound.round_exists (sound : s.Sound cfg W initial owner)
    (ready : ∀ i, Ready (W.attempt i) s.world)
    (settling : ∀ i, s.Has TransactionAgent.Settling (W.attempt i).id) :
    ∃ t, Round cfg owner s t := by
  obtain round | ⟨m, w, err, works, failed⟩ := sound.progress
  · exact round
  · obtain ⟨item, rest, x, items, owned, failed⟩ := Sim.handle_error failed
    obtain ⟨i, -, same⟩ := List.mem_map.mp
      ((sound.take.works works).listed item.transferID (by simp [owned]))
    obtain ⟨y, owned', c⟩ := (settling i).works (closed_settling cfg) sound (ready i) works
    rw [same, owned, Option.some.injEq] at owned'
    obtain ⟨r, again, done, -⟩ : ∃ r again,
        workOn cfg m.world x item m.round = .ok (r, again) ∧ r.agent.Settling :=
      (closed_settling cfg).work (owned' ▸ c) item
    rw [done] at failed
    cases failed

theorem Sim.Sound.rounds_exist (sound : s.Sound cfg W initial owner)
    (ready : ∀ i, Ready (W.attempt i) s.world)
    (settling : ∀ i, s.Has TransactionAgent.Settling (W.attempt i).id) (k : Nat) :
    ∃ t, Rounds cfg owner k s t := by
  suffices runs : ∃ t, Rounds cfg owner k s t ∧ (∀ i, Ready (W.attempt i) t.world) ∧
      ∀ i, t.Has TransactionAgent.Settling (W.attempt i).id from runs.imp fun _ => And.left
  induction k with
  | zero => exact ⟨s, .zero, ready, settling⟩
  | succ k ih =>
    obtain ⟨m, rounds, ready, settling⟩ := ih
    have sound := sound.rounds rounds
    obtain ⟨t, round⟩ := sound.round_exists ready settling
    have next := fun i => (settling i).round (closed_settling cfg) sound (ready i) round
    exact ⟨t, rounds.succ round, fun i => (next i).1, fun i => (next i).2⟩

theorem Sim.start_early {world : World} (opens : Sim.Opens W initial world) (i : Fin W.count) :
    (Sim.start W owner world).At cfg W initial owner i .early := by
  obtain ⟨policies, fresh⟩ := opens.fresh
  have mine : ((List.finRange W.count).filter fun j =>
      owner (W.attempt j).id = owner (W.attempt i).id ∧ (W.attempt j).id = (W.attempt i).id) =
      [i] := by
    have only : ∀ j ∈ List.finRange W.count, decide (owner (W.attempt j).id =
        owner (W.attempt i).id ∧ (W.attempt j).id = (W.attempt i).id) = decide (j = i) := by
      intro j _
      by_cases same : j = i
      · simp [same]
      · simp [same, W.id_ne same]
    rw [List.filter_congr only]
    refine (List.filter_beq i).trans ?_
    rw [List.count_eq_one_of_mem (List.nodup_finRange _) (List.mem_finRange i)]
    rfl
  have view : (Sim.start W owner world).view owner (W.attempt i).id =
      ⟨some (.start (W.attempt i)), [], [(W.attempt i).stepItem], true, []⟩ := by
    have agent : (Sim.start W owner world).agents (W.attempt i).id = _ := Sim.start_agent i
    have queue : (((Sim.start W owner world).workers (owner (W.attempt i).id)).queue.filter
        fun item => item.transferID = (W.attempt i).id) = [(W.attempt i).stepItem] := by
      simp only [Sim.start, List.filter_map, List.filter_filter, Function.comp_def]
      have same := congrArg (List.map fun j : Fin W.count =>
        ({ transferID := (W.attempt j).id } : WorkItem)) mine
      simpa [and_comm, Attempt.stepItem] using same
    have queued : ((Sim.start W owner world).workers (owner (W.attempt i).id)).queued
        (W.attempt i).id = true := by
      simp [Sim.start]
    rw [Sim.view, agent, queue, queued]
    simp [Sim.start]
  refine .of_view (Sim.start_sound opens) ⟨fun name => ?_, opens.senders i, opens.receivers i⟩ view
    rfl rfl (.head _) ⟨rfl, ?_⟩
  · simp [Sim.start, fresh]
  · constructor <;> simp [Sim.start, fresh]

theorem Sim.At.agent {place : Place} (here : s.At cfg W initial owner i place) :
    ∃ x, s.agents (W.attempt i).id = some x ∧ x.phase ∈ place.phases := by
  obtain ⟨x, -, phase, agent, -⟩ := here.stands
  exact ⟨x, agent, phase⟩

theorem Sim.At.late {place : Place} (here : s.At cfg W initial owner i place)
    (late : ∀ phase ∈ place.phases, phase.Late) :
    s.Has (fun x => x.phase.Late) (W.attempt i).id := by
  obtain ⟨x, owned, phase⟩ := here.agent
  exact ⟨x, owned, late _ phase⟩

/-- Up to its admission a transfer waits to be stepped, and nothing is recorded of it. -/
theorem Rounds.admission {world : World} (opens : Sim.Opens W initial world)
    (proper : (W.attempt i).Proper) {k : Nat}
    (rounds : Rounds cfg owner k (Sim.start W owner world) s) :
    Ready (W.attempt i) s.world ∧ (s.At cfg W initial owner i .early ∨
      s.At cfg W initial owner i .admitted ∨ s.Has (fun x => x.phase.Late) (W.attempt i).id) := by
  generalize first : Sim.start W owner world = s₀ at rounds
  induction rounds with
  | zero =>
    subst first
    have early : (Sim.start W owner world).At cfg W initial owner i .early :=
      Sim.start_early opens i
    exact ⟨early.ready, .inl early⟩
  | @succ k s₀ m t rounds round ih =>
    have sound : m.Sound cfg W initial owner := by
      subst first
      exact (Sim.start_sound opens).rounds rounds
    obtain ⟨ready, early | admitted | past⟩ := ih first
    · obtain early | admitted | rejected := early.trust round
      · exact ⟨early.ready, .inl early⟩
      · exact ⟨admitted.ready, .inr (.inl admitted)⟩
      · exact ⟨rejected.ready,
          .inr (.inr (rejected.late (by simp [Place.phases, AgentPhase.Late])))⟩
    · obtain ⟨-, reserved⟩ | ⟨-, rejected⟩ := admitted.reserved proper round
      · exact ⟨reserved.ready,
          .inr (.inr (reserved.late (by simp [Place.phases, AgentPhase.Late])))⟩
      · exact ⟨rejected.ready,
          .inr (.inr (rejected.late (by simp [Place.phases, AgentPhase.Late])))⟩
    · obtain ⟨ready, past⟩ := past.round (closed_late cfg) sound ready round
      exact ⟨ready, .inr (.inr past)⟩

/-- Where a transfer that was reserved stands after some rounds, if agents wait long enough. -/
def placeAfter : Nat → Place
  | 0 => .reserved
  | 1 => .offered
  | 2 => .accepted
  | 3 => .agreed
  | 4 => .committed
  | 5 => .confirming
  | 6 => .acknowledged
  | _ => .ended .done

theorem Rounds.patient (patient : 2 ≤ cfg.retryDelay) (started : 0 ≤ s.round)
    (fits : t.round + cfg.retryDelay < 2 ^ 63) (proper : (W.attempt i).Proper)
    (here : s.At cfg W initial owner i .reserved) {k : Nat} (rounds : Rounds cfg owner k s t) :
    t.At cfg W initial owner i (placeAfter k) := by
  induction rounds with
  | zero => exact here
  | @succ k s m t rounds round ih =>
    have time := Sim.rounds_time rounds
    have next := Sim.rounds_time (.succ rounds round)
    have now : cfg.Fits m.round := ⟨by omega, by omega, by omega⟩
    have there := ih started (by omega) here
    match k with
    | 0 => exact there.offered now round
    | 1 => exact there.accepted proper patient now round
    | 2 => exact there.agreed proper round
    | 3 => exact there.committed proper round
    | 4 => exact there.confirming now round
    | 5 => exact there.acknowledged proper patient now round
    | 6 => exact there.done proper round
    | k + 7 => exact there.ended round

/-- With a retry delay of one round, offers are made for ever. -/
theorem Rounds.hasty (hasty : cfg.retryDelay = 1) (expiry : 0 ≤ cfg.reservationExpiry)
    (started : 0 ≤ s.round) (fits : t.round + cfg.retryDelay < 2 ^ 63)
    (proper : (W.attempt i).Proper) (here : s.At cfg W initial owner i .reserved) {k : Nat}
    (rounds : Rounds cfg owner k s t) :
    t.At cfg W initial owner i .reserved ∨ t.At cfg W initial owner i .offered ∨
      t.At cfg W initial owner i .again := by
  induction rounds with
  | zero => exact .inl here
  | @succ k s m t rounds round ih =>
    have time := Sim.rounds_time rounds
    have next := Sim.rounds_time (.succ rounds round)
    have now : cfg.Fits m.round := ⟨by omega, by omega, by omega⟩
    obtain reserved | offered | again := ih started (by omega) here
    · exact .inr (.inl (reserved.offered now round))
    · exact .inr (.inr (offered.woken proper hasty expiry now round))
    · exact .inr (.inl (again.offered_again now round))

theorem Rounds.offering (hasty : cfg.retryDelay = 1) (expiry : 0 ≤ cfg.reservationExpiry)
    (started : 0 ≤ s.round) (fits : t.round + cfg.retryDelay < 2 ^ 63)
    (proper : (W.attempt i).Proper) (here : s.At cfg W initial owner i .reserved) {k : Nat}
    (rounds : Rounds cfg owner k s t) :
    ∃ y, t.agents (W.attempt i).id = some y ∧ y.phase.terminal = false := by
  obtain there | there | there := rounds.hasty hasty expiry started fits proper here
  all_goals
    obtain ⟨y, owned, phase⟩ := there.agent
    rw [Place.phases, List.mem_singleton] at phase
    exact ⟨y, owned, by rw [phase]; rfl⟩

theorem Rounds.rejected (here : s.At cfg W initial owner i (.ended .rejected)) {k : Nat}
    (rounds : Rounds cfg owner k s t) : t.At cfg W initial owner i (.ended .rejected) := by
  induction rounds with
  | zero => exact here
  | succ _ round ih => exact (ih here).ended round

/-- An agent that was admitted is at its place. -/
theorem Rounds.admitted {world : World} (opens : Sim.Opens W initial world)
    (proper : (W.attempt i).Proper) {k : Nat}
    (run : Rounds cfg owner k (Sim.start W owner world) s)
    (admitted : ∃ x, s.agents (W.attempt i).id = some x ∧ x.phase = .trustAdmitted) :
    s.At cfg W initial owner i .admitted := by
  obtain ⟨x, owned, phase⟩ := admitted
  obtain ⟨-, early | here | ⟨y, owned', past⟩⟩ := Rounds.admission opens proper run
  · obtain ⟨y, owned', other⟩ := early.agent
    cases owned.symm.trans owned'
    simp [phase, Place.phases] at other
  · exact here
  · cases owned.symm.trans owned'
    exact absurd phase past.2.2

end Runs

/-! ## A transfer between two authorities -/

def microSim : Sim 1 := Sim.start microWorkload (fun _ => 0) microStart.world

theorem microSim_opens : Sim.Opens microWorkload (fun _ => 100) microStart.world where
  fresh := ⟨cappedPolicy, rfl⟩
  senders := by decide
  receivers := by decide

theorem micro_proper (i : Fin microWorkload.count) : (microWorkload.attempt i).Proper := by
  constructor <;> decide +revert

def microTransfer : Fin microWorkload.count := ⟨0, by decide⟩

def microRound (cfg : Config) (s : Sim 1) : Sim 1 :=
  let m := (s.take.handle cfg 0).toOption.getD s
  m.finish cfg (fun _ => 0) m.transport
    ((List.finRange microWorkload.count).map fun i => (microWorkload.attempt i).id)

theorem micro_round {cfg : Config} {s : Sim 1}
    (sound : s.Sound cfg microWorkload (fun _ => 100) fun _ => 0)
    (one : (s.take.workers 0).items.length = 1)
    (done : ((s.take.handle cfg 0).toOption.map fun m => (m.workers 0).items.length) = some 0) :
    Round cfg (fun _ => 0) s (microRound cfg s) := by
  obtain ⟨m, result, finished⟩ := Option.map_eq_some_iff.mp done
  have handled : s.take.handle cfg 0 = .ok m := toOption_eq_some.mp result
  have works : Relation.ReflTransGen (Work cfg) s.take m :=
    .single (.handle (by rintro empty; simp [empty] at one) handled)
  refine ⟨works, fun w => ?_, fun _ => .rfl, by decide, (sound.take.works works).listed, ?_⟩
  · rw [Subsingleton.elim w 0]
    exact List.length_eq_zero_iff.mp finished
  · simp only [microRound, result, Option.getD_some]

section Micro

variable {cfg : Config}

theorem microSim_sound : microSim.Sound cfg microWorkload (fun _ => 100) fun _ => 0 :=
  Sim.start_sound microSim_opens

end Micro

def hastyConfig : Config where
  retryDelay := 1
  reservationExpiry := 24

end OctetDB.Trust
