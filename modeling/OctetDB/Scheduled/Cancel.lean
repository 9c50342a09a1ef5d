import OctetDB.Scheduled.Capacity

/-!
# Cancelled contexts and batches

A worker executes a job with the context of its first request. So the context of a request that is
batched behind another one is never looked at by the worker, and that of the first request decides
on the whole batch: if it is cancelled, all requests of the batch are answered with the error.
-/

namespace OctetDB.Scheduled

/-- When the context of a request is cancelled, if it is. -/
abbrev Contexts := Nat → Option Int

def Contexts.cancelled (contexts : Contexts) (id : Nat) (now : Int) : Bool :=
  (contexts id).any (· ≤ now)

/-- What executes operations. A call fails exactly when its context is cancelled. -/
structure Backend where
  executeOne : Bool → Operation → Option String
  executeBatch : Bool → List Operation → Option String
  executeOne_fails : ∀ cancelled op, (executeOne cancelled op).isSome = cancelled
  executeBatch_fails : ∀ cancelled ops, (executeBatch cancelled ops).isSome = cancelled

/-- A worker executes a job. -/
def work (backend : Backend) (contexts : Contexts) (job : Batch) (started finished : Int) :
    Completion where
  job := job
  err :=
    match job.requests with
    -- No job is without a request.
    | [] => none
    | [first] => backend.executeOne (contexts.cancelled first.id finished) first.op
    | first :: rest =>
      backend.executeBatch (contexts.cancelled first.id finished)
        ((first :: rest).map Request.op)
  started := started
  finished := finished

/-- What a request of a job is answered: by the worker, or by the dispatcher if there is a control
strategy. -/
def answer (cfg : Config) (done : Completion) (r : Request) : Result :=
  if cfg.strategy = .none then Batcher.result done r else Plant.result done r

theorem err_answer (cfg : Config) (done : Completion) (r : Request) :
    (answer cfg done r).err = done.err := by
  unfold answer
  split <;> rfl

/-! ## Groups -/

/-- The dispatcher of a scheduler forms the job in some run. -/
inductive Formed (cfg : Config) : Batch → Prop
  | dispatch {ids : List Nat} {w : World (batching cfg)} {group : List Request}
      {carry : Option Request} (plain : cfg.strategy = .none)
      (run : Run cfg (fun _ _ => True) ids w)
      (sending : Batcher.phase w.machine = .send group carry) : Formed cfg { requests := group }
  | conflictDispatch {ids : List Nat} {w : World (controlled cfg)} {t : Plant} {job : Batch}
      {now : Int} (control : cfg.strategy ≠ .none) (run : Run cfg (fun _ _ => True) ids w)
      (ready : Plant.phase w.machine = .ready now)
      (next : Plant.dispatchNext cfg now w.machine = (t, some job)) : Formed cfg job

/-- The requests that a dispatcher holds are different ones. -/
theorem Run.held_nodup {cfg : Config} {M : Machine} {allowed : World M → Event → Prop}
    {ids : List Nat} {w : World M} (run : Run cfg allowed ids w) : (M.held w.machine).Nodup := by
  have acc := run.accounts
  have distinct := (acc.admitted.nodup_iff).mpr acc.distinct
  have part : (M.held w.machine).Sublist w.outstanding :=
    (List.sublist_append_right _ _).trans (List.sublist_append_left _ _)
  exact ((distinct.sublist (List.sublist_append_left _ _)).sublist
    (List.sublist_append_left _ _)).sublist part

theorem Formed.nodup {cfg : Config} {job : Batch} (formed : Formed cfg job) :
    (job.requests.map Request.id).Nodup := by
  cases formed with
  | @dispatch ids w group carry plain run sending =>
    have distinct : (((Batcher.phase w.machine).hand ++ Batcher.issued w.machine).map
        Request.id).Nodup := run.held_nodup
    rw [sending, BatchPhase.hand, List.append_assoc, List.map_append] at distinct
    exact distinct.sublist (List.sublist_append_left _ _)
  | @conflictDispatch ids w t job now control run ready next =>
    have distinct : (Plant.held w.machine).Nodup := run.held_nodup
    obtain ⟨first, taken, others, policies, -, -, rfl, keys, -, -⟩ := dispatchNext_some next
    have pending := (perm_ids keys).nodup_iff.mpr (distinct.sublist (List.sublist_append_left _ _))
    rw [List.map_append] at pending
    rw [map_id_settle]
    exact pending.sublist (List.sublist_append_left _ _)

/-! ## Isolation -/

/-- Whether and when the context of a request is cancelled does not change the error of any other
request of the job. -/
def Isolated (cfg : Config) (backend : Backend) (job : Batch) (started finished : Int)
    (q : Request) : Prop :=
  ∀ contexts contexts' : Contexts, (∀ id, id ≠ q.id → contexts id = contexts' id) →
    ∀ r ∈ job.requests, r.id ≠ q.id →
      (answer cfg (work backend contexts job started finished) r).err =
        (answer cfg (work backend contexts' job started finished) r).err

/-- Only the context of the first request is looked at. -/
theorem work_congr {backend : Backend} {contexts contexts' : Contexts} {job : Batch}
    {started finished : Int} {first : Request} {rest : List Request}
    (requests : job.requests = first :: rest) (same : contexts first.id = contexts' first.id) :
    work backend contexts job started finished = work backend contexts' job started finished := by
  have cancelled : contexts.cancelled first.id finished =
      contexts'.cancelled first.id finished := by
    rw [Contexts.cancelled, same, Contexts.cancelled]
  cases rest with
  | nil => simp only [work, requests, cancelled]
  | cons second rest => simp only [work, requests, cancelled]

/-- A batch fails exactly when the context of its first request is cancelled. -/
theorem isSome_err_work {backend : Backend} {contexts : Contexts} {job : Batch}
    {started finished : Int} {first : Request} {rest : List Request}
    (requests : job.requests = first :: rest) :
    (work backend contexts job started finished).err.isSome =
      contexts.cancelled first.id finished := by
  cases rest with
  | nil => simp only [work, requests, backend.executeOne_fails]
  | cons second rest => simp only [work, requests, backend.executeBatch_fails]

/-- In every group that a dispatcher forms, the cancellation of a request leaves the errors of the
others alone exactly if it is alone, or not the first one. -/
theorem cancellation_isolated_iff {cfg : Config} {job : Batch} (formed : Formed cfg job)
    {q : Request} (mem : q ∈ job.requests) (backend : Backend) (started finished : Int) :
    Isolated cfg backend job started finished q ↔
      job.requests.length = 1 ∨ job.requests.head? ≠ some q := by
  have distinct := formed.nodup
  cases requests : job.requests with
  | nil =>
    rw [requests] at mem
    cases mem
  | cons first rest =>
    rw [requests] at mem distinct
    obtain ⟨new, -⟩ := List.nodup_cons.mp distinct
    rw [List.head?_cons, List.length_cons]
    constructor
    · intro isolated
      by_contra both
      push Not at both
      obtain ⟨several, same⟩ := both
      obtain rfl := Option.some.inj same
      cases rest with
      | nil => exact several rfl
      | cons second rest =>
        -- The second request sees whether the context of the first one is cancelled.
        have other : second.id ≠ first.id := fun same =>
          new (same ▸ List.mem_map_of_mem (List.mem_cons_self ..))
        have errs :=
          isolated (fun _ => none) (fun id => if id = first.id then some finished else none)
          (fun id ne => (if_neg ne).symm) second (by simp [requests]) other
        rw [err_answer, err_answer] at errs
        have fails := congrArg Option.isSome errs
        rw [isSome_err_work requests, isSome_err_work requests] at fails
        simp [Contexts.cancelled] at fails
    · rintro (alone | behind) contexts contexts' same r listed other
      · obtain rfl := List.length_eq_zero_iff.mp (Nat.succ.inj alone)
        rw [requests] at listed
        rw [List.mem_singleton.mp listed, List.mem_singleton.mp mem] at other
        exact absurd rfl other
      · have ahead : first.id ≠ q.id := by
          intro eq
          rcases List.mem_cons.mp mem with rfl | later
          · exact behind rfl
          · exact new (eq ▸ List.mem_map_of_mem later)
        rw [err_answer, err_answer, work_congr requests (same first.id ahead)]

/-! ## A batch of two reads -/

def cancelling : Backend where
  executeOne cancelled _ := if cancelled then some "context canceled" else none
  executeBatch cancelled _ := if cancelled then some "context canceled" else none
  executeOne_fails cancelled _ := by cases cancelled <;> rfl
  executeBatch_fails cancelled _ := by cases cancelled <;> rfl

def readConfig : Config := newScheduler .none 4 2 1 2000000 true

def firstRead : Request := { id := 0, op := ⟨0, .pointRead, 0, 0⟩, queuedAt := 0 }

def secondRead : Request := { id := 1, op := ⟨1, .pointRead, 0, 0⟩, queuedAt := 0 }

theorem twoReads_formed : Formed readConfig { requests := [firstRead, secondRead] } := by
  have started : Run readConfig (fun _ _ => True) []
      ({ machine := ({} : Batcher) } : World (batching readConfig)) := .start
  have admitted := (started.step (.accept firstRead rfl) trivial (by simp)).step
    (.accept secondRead rfl) trivial (by
      rintro r ⟨⟩
      decide)
  have entered := (admitted.step
    (.enter (show _ = [secondRead] ++ firstRead :: [] from rfl) (by decide)) trivial nofun).step
    (.enter (show _ = [] ++ secondRead :: [] from rfl) (by decide)) trivial nofun
  have first := entered.step (.receive rfl
    (show BatchStep readConfig 2 {} (.receive firstRead) _ from .first firstRead rfl)) trivial nofun
  have second := first.step (.receive rfl
    (show BatchStep readConfig 2 _ (.receive secondRead) _ from
      .join secondRead (show _ = BatchPhase.gather firstRead [] from rfl))) trivial nofun
  exact .dispatch rfl second rfl

theorem second_cancelled : secondRead ∈ [firstRead, secondRead] ∧
    Isolated readConfig cancelling { requests := [firstRead, secondRead] } 0 10 secondRead := by
  have mem : secondRead ∈ [firstRead, secondRead] := by simp
  exact ⟨mem, (cancellation_isolated_iff twoReads_formed mem cancelling 0 10).mpr
    (.inr (by decide))⟩

/-- The caller of the first read gives up, and the second read fails. -/
theorem first_cancelled : Formed readConfig { requests := [firstRead, secondRead] } ∧
    ∃ contexts contexts' : Contexts, (∀ id, id ≠ firstRead.id → contexts id = contexts' id) ∧
      (answer readConfig (work cancelling contexts { requests := [firstRead, secondRead] } 0 10)
        secondRead).err = none ∧
      (answer readConfig (work cancelling contexts' { requests := [firstRead, secondRead] } 0 10)
        secondRead).err = some "context canceled" :=
  ⟨twoReads_formed, fun _ => none, fun id => if id = 0 then some 5 else none,
    fun _ other => (if_neg other).symm, rfl, rfl⟩

end OctetDB.Scheduled
