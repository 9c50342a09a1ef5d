import OctetDB.Scheduled.Dispatch

/-!
# The batching dispatcher

Without a control strategy the dispatcher only batches. It takes a request, waits for reads of the
same kind until the batch is full, another kind of request comes or the deadline passes, and sends
the batch to the workers, which answer its requests themselves. A request of another kind is
carried over and begins the next batch.
-/

namespace OctetDB.Scheduled

/-- Where the dispatcher is. Nothing is carried over while a batch is gathered. -/
inductive BatchPhase where
  | select (carry : Option Request)
  | gather (first : Request) (others : List Request)
  | send (group : List Request) (carry : Option Request)
  /-- It has returned, with these requests in its hands. -/
  | stopped (hand : List Request)

/-- The requests that the dispatcher has in its hands. -/
def BatchPhase.hand : BatchPhase → List Request
  | select carry => carry.toList
  | gather first others => first :: others
  | send group carry => group ++ carry.toList
  | stopped hand => hand

/-- The first request of a batch. -/
def BatchPhase.begin (cfg : Config) (first : Request) : BatchPhase :=
  if first.op.kind.isRead ∧ cfg.maxBatch > 1 then .gather first [] else .send [first] none

/-- The next request while a batch is gathered. -/
def BatchPhase.offer (cfg : Config) (used : Int) (first : Request) (others : List Request)
    (next : Request) : BatchPhase :=
  let group := first :: others
  let fits :=
    if cfg.plainBatch then next.op.kind == first.op.kind && next.op.kind.isRead
    else compatible first.op.kind next.op.kind
  let decision :=
    if cfg.plainBatch then .compatible
    else policyDecision used (cfg.capacity + 1) next.op.kind first.op.kind group.length cfg.maxBatch
  if fits = false ∨ decision = .wait then .send group (some next)
  else if decision = .dispatch ∨ cfg.maxBatch ≤ group.length + 1 then .send (group ++ [next]) none
  else .gather first (others ++ [next])

structure Batcher where
  phase : BatchPhase := .select none
  jobs : List Batch := []
  running : List Batch := []
  /-- The jobs that have been executed, with the requests that are not yet answered. -/
  replying : List (Completion × List Request) := []

/-- What a worker answers to a request of its job. -/
def Batcher.result (done : Completion) (r : Request) : Result where
  err := done.err
  queueTime := done.started - r.queuedAt
  service := done.finished - done.started
  batchSize := done.job.requests.length

/-- The steps of the dispatcher and of the workers; `used` is the number of admitted requests that
the dispatcher reads. -/
inductive BatchStep (cfg : Config) (used : Int) : Batcher → Label → Batcher → Prop
  | first {b : Batcher} (r : Request) (idle : b.phase = .select none) :
      BatchStep cfg used b (.receive r) { b with phase := .begin cfg r }
  | carried {b : Batcher} {r : Request} (carry : b.phase = .select (some r)) :
      BatchStep cfg used b .internal { b with phase := .begin cfg r }
  | join {b : Batcher} {first : Request} {others : List Request} (r : Request)
      (gathering : b.phase = .gather first others) :
      BatchStep cfg used b (.receive r) { b with phase := .offer cfg used first others r }
  | deadline {b : Batcher} {first : Request} {others : List Request}
      (gathering : b.phase = .gather first others) :
      BatchStep cfg used b .internal { b with phase := .send (first :: others) none }
  | send {b : Batcher} {group : List Request} {carry : Option Request}
      (sending : b.phase = .send group carry) (room : b.jobs.length < cfg.workers) :
      BatchStep cfg used b .internal
        { b with phase := .select carry, jobs := b.jobs ++ [{ requests := group }] }
  | work {b : Batcher} {job : Batch} {jobs : List Batch} (queued : b.jobs = job :: jobs)
      (free : b.running.length + b.replying.length < cfg.workers) :
      BatchStep cfg used b .internal { b with jobs := jobs, running := job :: b.running }
  | execute {b : Batcher} {job : Batch} {before behind : List Batch} (err : Option String)
      (started finished : Int) (running : b.running = before ++ job :: behind) :
      BatchStep cfg used b .internal
        { b with
          running := before ++ behind
          replying := (⟨job, err, started, finished⟩, job.requests) :: b.replying }
  | answer {b : Batcher} {done : Completion} {r : Request} {rest : List Request}
      {before behind : List (Completion × List Request)}
      (replying : b.replying = before ++ (done, r :: rest) :: behind) :
      BatchStep cfg used b (.answer r (Batcher.result done r))
        { b with replying := before ++ (done, rest) :: behind }
  | answered {b : Batcher} {done : Completion} {before behind : List (Completion × List Request)}
      (replying : b.replying = before ++ (done, []) :: behind) :
      BatchStep cfg used b .internal { b with replying := before ++ behind }
  | stop {b : Batcher} (waits : ∀ r, b.phase ≠ .select (some r))
      (goesOn : ∀ hand, b.phase ≠ .stopped hand) :
      BatchStep cfg used b .stop { b with phase := .stopped b.phase.hand }

/-! ## Where requests are -/

theorem BatchPhase.hand_begin (cfg : Config) (r : Request) : (begin cfg r).hand = [r] := by
  unfold begin
  split_ifs <;> rfl

theorem BatchPhase.hand_offer (cfg : Config) (used : Int) (first : Request)
    (others : List Request) (r : Request) :
    (offer cfg used first others r).hand = first :: others ++ [r] := by
  simp only [offer]
  split_ifs <;> simp [hand]

namespace Batcher

/-- The requests that the workers have or will have. -/
def issued (b : Batcher) : List Request :=
  b.jobs.flatMap (·.requests) ++ (b.running.flatMap (·.requests) ++ b.replying.flatMap (·.2))

def held (b : Batcher) : List Nat := (b.phase.hand ++ b.issued).map Request.id

variable {b : Batcher} {ids : List Nat}

/-- A step of the dispatcher with the requests in its hands. -/
theorem held_turn {phase : BatchPhase}
    (hand : (phase.hand.map Request.id).Perm (ids ++ b.phase.hand.map Request.id)) :
    (held { b with phase := phase }).Perm (ids ++ b.held) := by
  rw [held, held, List.map_append, List.map_append, ← List.append_assoc]
  exact .append_right _ hand

theorem held_serve {jobs running : List Batch} {replying : List (Completion × List Request)}
    (issued : (ids ++ (issued { b with
      jobs := jobs, running := running, replying := replying }).map Request.id).Perm
        (b.issued.map Request.id)) :
    (ids ++ held { b with jobs := jobs, running := running, replying := replying }).Perm
      b.held := by
  rw [held, held, List.map_append, List.map_append]
  exact (List.perm_append_comm_assoc _ _ _).trans (.append_left _ issued)

end Batcher

section Steps

variable {cfg : Config} {used : Int} {b c : Batcher} {l : Label}

/-- A request is held from the step that receives it to the step that answers it. -/
theorem BatchStep.held (next : BatchStep cfg used b l c) :
    (l.answered ++ c.held).Perm (l.received ++ b.held) := by
  cases next with
  | first r idle | carried idle =>
    refine Batcher.held_turn ?_
    rw [BatchPhase.hand_begin, idle]
    exact .refl _
  | join r gathering =>
    refine Batcher.held_turn ?_
    rw [BatchPhase.hand_offer, gathering, List.map_append]
    exact List.perm_append_singleton _ _
  | deadline gathering =>
    refine Batcher.held_turn ?_
    simp [gathering, BatchPhase.hand, Label.received]
  | @send group carry sending room =>
    refine .map Request.id ?_
    simp only [Batcher.issued, sending, BatchPhase.hand, List.flatMap_append,
      List.flatMap_singleton, List.append_assoc]
    exact .trans (.append_left _ (List.perm_append_comm_assoc _ _ _))
      (List.perm_append_comm_assoc _ _ _)
  | @work job jobs queued free =>
    refine Batcher.held_serve (.map Request.id ?_)
    simp only [Batcher.issued, queued, List.flatMap_cons, List.append_assoc]
    exact List.perm_append_comm_assoc _ _ _
  | @execute job before behind err started finished running =>
    refine Batcher.held_serve (.map Request.id (.append_left _ ?_))
    rw [running]
    simp only [List.flatMap_cons, List.flatMap_append, List.append_assoc]
    exact .append_left _ (List.perm_append_comm_assoc _ _ _)
  | @answer done r rest before behind replying =>
    refine Batcher.held_serve (.map Request.id (show (r :: _).Perm _ from ?_))
    rw [Batcher.issued, Batcher.issued, replying]
    simp only [List.flatMap_append, List.flatMap_cons, List.cons_append, ← List.append_assoc]
    rw [List.append_assoc _ rest]
    exact List.perm_middle.symm
  | answered replying =>
    refine Batcher.held_serve (.map Request.id ?_)
    simp [Batcher.issued, replying]
  | stop waits goesOn => exact .refl _

end Steps

end OctetDB.Scheduled
