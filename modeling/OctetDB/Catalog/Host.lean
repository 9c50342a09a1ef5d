import OctetDB.Catalog.Handle

/-!
# The life of a handle

The steps of any number of callers, of the coordinator and of Close, in any order and with
any storage failures.
-/

namespace OctetDB

/-! ## Mutations -/

/-- What a caller of `SubmitKeyed` or `Mutate` passes as its callback. -/
inductive Mutation where
  | keyed (callback : Option MutationFunc)
  | catalog (program : Option TxProgram)

/-- The callback of the keyed store, run on the database as it is by then. -/
def Mutation.callback (mutation : Mutation) (db : Database) : Option MutationFunc :=
  match mutation with
  | .keyed callback => callback
  | .catalog program => program.map db.mutation

/-- A call of `SubmitKeyed` or `Mutate`. `cancelled` is the error of its context if that is
done when the command's turn comes. -/
structure Submission where
  commandID : Bytes
  mutation : Mutation
  cancelled : Option String := none

def Submission.request (submission : Submission) (db : Database) : KeyedCommitRequest where
  cancelled := submission.cancelled
  commandID := submission.commandID
  mutation := submission.mutation.callback db

/-- The checks of a mutation before it is queued. -/
def Database.submit (db : Database) (ctx : Context) (mutation : Mutation) : Except Failure Unit :=
  match mutation with
  | .catalog none => .error (.product ⟨.invalidInput, "catalog_mutate", "mutation is required"⟩)
  | _ =>
    if db.keyed.closed then .error (closedError "submit_keyed")
    else if ctx = .nil then .error (nilContextError "submit_keyed")
    else if db.keyed.poisoned then .error (poisonedError "submit_keyed")
    else .ok ()

/-! ## The state of a handle in use -/

/-- A handle with the directory it owns, the mutations between their checks and the queue, the
queue, and the calls that wait for admission. `finished` tells whether Close is through.
`synced` are the records whose frames a successful Sync has covered. -/
structure Host where
  db : Database
  dir : Directory
  submitting : List Submission := []
  queue : List Submission := []
  waiting : List Call := []
  finished : Bool := false
  synced : List KeyedWALRecord := []

namespace Host

def request (host : Host) (ctx : Context) (call : Call) : Except Failure Unit :=
  match call.validate host.db.keyed.options with
  | .error err => .error (.product err)
  | .ok () => host.db.keyed.enterKeyed ctx call.op

def perform (host : Host) (call : Call) (env : Environment) : Host × Except Failure Reply :=
  match host.db.keyed.admitKeyed call.op with
  | .error err => (host, .error err)
  | .ok () =>
    let performed := host.db.perform host.dir env call
    ({ host with db := performed.db, dir := performed.dir }, performed.reply)

/-- The first requests of the queue, with their callbacks bound to the database. -/
def requests (host : Host) (size : Nat) : List KeyedCommitRequest :=
  (host.queue.take size).map (·.request host.db)

def group (host : Host) (size : Nat) (faults : Faults) : GroupOutcome :=
  processCommitGroup faults host.db.keyed (host.dir.wal.getD []) (host.requests size)

/-- The loop over the group when the requests `before` of it are through. -/
def turn (host : Host) (size : Nat) (faults : Faults) (before : List KeyedCommitRequest) :
    GroupState :=
  before.foldl (groupStep faults)
    (.start host.db.keyed (host.dir.wal.getD []) (host.requests size).length)

def commit (host : Host) (size : Nat) (faults : Faults) : Host :=
  let outcome := host.group size faults
  { host with
    db := { host.db with
      keyed := outcome.db
      queryKeys := match host.db.keyed.format with
        | .keyed => host.db.queryKeys
        | .catalog => outcome.applied.foldl applyQueryKeyMutations host.db.queryKeys }
    dir := { host.dir with wal := host.dir.wal.map fun _ => outcome.wal }
    queue := host.queue.drop size
    synced := host.synced ++ outcome.synced }

/-- The end of Close, once the queue is empty: a last snapshot, unless the handle is
poisoned. -/
def finish (host : Host) (env : Environment) : Host × Option Error :=
  if host.db.keyed.poisoned then ({ host with finished := true }, none)
  else
    let (dir, err) := snapshotKeyed host.db.keyed host.dir env.fault
    ({ host with dir := dir, finished := true }, err)

end Host

inductive Answer where
  | reply (reply : Except Failure Reply)
  | result (result : KeyedCommitResult)
  | closed (err : Option Error)

inductive Host.Step : Host → List Answer → Host → Prop where
  | refuse {host : Host} {ctx : Context} {call : Call} {err : Failure}
      (bad : host.request ctx call = .error err) : Step host [.reply (.error err)] host
  | wait {host : Host} {ctx : Context} {call : Call} (good : host.request ctx call = .ok ()) :
      Step host [] { host with waiting := host.waiting ++ [call] }
  | abandon {host : Host} {before after : List Call} {call : Call} (message : String)
      (pending : host.waiting = before ++ call :: after) :
      Step host [.reply (.error (.context message))] { host with waiting := before ++ after }
  | perform {host : Host} {before after : List Call} {call : Call} (env : Environment)
      (pending : host.waiting = before ++ call :: after) :
      Step host [.reply (host.perform call env).2]
        { (host.perform call env).1 with waiting := before ++ after }
  | refuseMutation {host : Host} {ctx : Context} {mutation : Mutation} {err : Failure}
      (bad : host.db.submit ctx mutation = .error err) :
      Step host [.result { err := some err }] host
  | submit {host : Host} {ctx : Context} {submission : Submission}
      (good : host.db.submit ctx submission.mutation = .ok ()) :
      Step host [] { host with submitting := host.submitting ++ [submission] }
  | enqueue {host : Host} {before after : List Submission} {submission : Submission}
      (pending : host.submitting = before ++ submission :: after)
      (opened : host.db.keyed.closed = false) :
      Step host []
        { host with submitting := before ++ after, queue := host.queue ++ [submission] }
  | late {host : Host} {before after : List Submission} {submission : Submission}
      (pending : host.submitting = before ++ submission :: after)
      (closed : host.db.keyed.closed = true) :
      Step host [.result { err := some (closedError "submit_keyed") }]
        { host with submitting := before ++ after }
  | group {host : Host} {size : Nat} (faults : Faults) (pos : 0 < size)
      (le : size ≤ min keyedMaxCommitGroup host.queue.length) :
      Step host ((host.group size faults).results.map .result) (host.commit size faults)
  | close {host : Host} (opened : host.db.keyed.closed = false) :
      Step host []
        { host with db := { host.db with keyed := { host.db.keyed with closed := true } } }
  | finish {host : Host} (env : Environment) (closed : host.db.keyed.closed = true)
      (drained : host.queue = []) (first : host.finished = false) :
      Step host [.closed (host.finish env).2] (host.finish env).1

inductive Host.Run : Host → List Answer → Host → Prop where
  | refl (host : Host) : Run host [] host
  | step {host next last : Host} {answers later : List Answer} (step : Host.Step host answers next)
      (rest : Run next later last) : Run host (answers ++ later) last

theorem Host.Run.trans {host next last : Host} {answers later : List Answer}
    (first : host.Run answers next) (rest : next.Run later last) :
    host.Run (answers ++ later) last := by
  induction first with
  | refl => exact rest
  | step step first ih =>
    rw [List.append_assoc]
    exact .step step (ih rest)

theorem Host.Run.call {host : Host} {ctx : Context} {call : Call} (env : Environment)
    (idle : host.waiting = []) (good : host.request ctx call = .ok ()) :
    host.Run [.reply (host.perform call env).2] (host.perform call env).1 := by
  obtain ⟨db, dir, submitting, queue, waiting, finished, synced⟩ := host
  obtain rfl : waiting = [] := idle
  have asked := @Step.wait ⟨db, dir, submitting, queue, [], finished, synced⟩ ctx call good
  have done :=
    @Step.perform ⟨db, dir, submitting, queue, [call], finished, synced⟩ [] [] call env rfl
  have run := Host.Run.step asked (.step done (.refl _))
  simp only [Host.perform] at run ⊢
  split at run <;> simpa [*] using run

theorem Host.Run.mutate {host : Host} {ctx : Context} {submission : Submission} (faults : Faults)
    (unsubmitted : host.submitting = []) (empty : host.queue = [])
    (opened : host.db.keyed.closed = false)
    (good : host.db.submit ctx submission.mutation = .ok ()) :
    host.Run (({ host with queue := [submission] }.group 1 faults).results.map .result)
      ({ host with queue := [submission] }.commit 1 faults) := by
  obtain ⟨db, dir, submitting, queue, waiting, finished, synced⟩ := host
  obtain rfl : submitting = [] := unsubmitted
  obtain rfl : queue = [] := empty
  have submitted := @Step.submit ⟨db, dir, [], [], waiting, finished, synced⟩ ctx submission good
  have queued := @Step.enqueue ⟨db, dir, [submission], [], waiting, finished, synced⟩ [] []
    submission rfl opened
  have decided := @Step.group ⟨db, dir, [], [submission], waiting, finished, synced⟩ 1 faults
    (by decide) (by simp [keyedMaxCommitGroup])
  have run := Host.Run.step submitted (.step queued (.step decided (.refl _)))
  simpa using run

/-! ## What a step does to the database -/

/-- The ways in which a step changes the database and its directory, with the number of requests
it takes from the queue. -/
inductive Host.Change (host : Host) : Nat → Database → Directory → Prop where
  | quiet : Change host 0 host.db host.dir
  | call {call : Call} {db : Database} {d : Directory} (pending : call ∈ host.waiting)
      (live : host.db.keyed.poisoned = false) (effect : host.db.Effect host.dir call db d) :
      Change host 0 db d
  | group (size : Nat) (faults : Faults) :
      Change host size (host.commit size faults).db (host.commit size faults).dir
  | close : Change host 0 { host.db with keyed := { host.db.keyed with closed := true } } host.dir
  | finish (fault : Option (Nat × String)) (live : host.db.keyed.poisoned = false) :
      Change host 0 host.db (snapshotKeyed host.db.keyed host.dir fault).1

def Host.taken (host next : Host) : Nat := host.queue.length - next.queue.length

theorem Host.Step.change {host next : Host} {answers : List Answer}
    (step : host.Step answers next) :
    host.Change (host.taken next) next.db next.dir := by
  have idle {next : Host} (change : host.Change 0 next.db next.dir)
      (same : next.queue = host.queue) : host.Change (host.taken next) next.db next.dir := by
    rwa [Host.taken, same, Nat.sub_self]
  cases step with
  | @perform before after call env pending =>
    refine idle ?_ (by simp only [Host.perform]; split <;> rfl)
    simp only [Host.perform]
    cases check : host.db.keyed.admitKeyed call.op with
    | error err => exact .quiet
    | ok =>
      have live : host.db.keyed.poisoned = false := by
        by_contra dead
        simp only [KeyedDB.admitKeyed, Bool.not_eq_false] at check dead
        rw [dead] at check
        split at check <;> cases check
      exact .call (by simp [pending]) live (host.db.perform_effect host.dir env call)
  | @enqueue before after submission pending opened =>
    have taken : host.queue.length - (host.queue ++ [submission]).length = 0 := by simp
    rw [Host.taken, taken]
    exact .quiet
  | @group size faults pos le =>
    have taken : host.taken (host.commit size faults) = size := by
      simp only [Host.taken, Host.commit, List.length_drop]
      omega
    rw [taken]
    exact .group size faults
  | close opened => exact idle .close rfl
  | finish env closed drained first =>
    refine idle ?_ (by simp only [Host.finish]; split <;> rfl)
    simp only [Host.finish]
    split
    · exact .quiet
    · exact .finish env.fault (by simp_all)
  | _ => exact idle .quiet rfl

end OctetDB
