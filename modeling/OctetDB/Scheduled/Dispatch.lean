import OctetDB.Scheduled.Select

/-!
# The conflict-aware dispatcher

One goroutine owns the pending requests and the tokens. It waits for a request, a completion or a
tick, and then dispatches what the policy chooses, a job at a time, while fewer jobs are active
than it exposes to the workers. A job goes through a channel to a worker, and its completion
through another one back to the dispatcher, which releases the token and answers.

A step is what one goroutine does between two points where another one can come in. Times are
whatever the clock says, and the delay that a tick sees is any number.
-/

namespace OctetDB.Scheduled

inductive Phase where
  | select
  /-- It dispatches what can be dispatched. -/
  | ready (now : Int)
  /-- It answers the requests of a job. -/
  | finishing (done : Completion) (rest : List Request)
  | stopped

structure Plant where
  pending : List Request := []
  owned : Owned := fun _ => none
  active : Int := 0
  exposure : Int
  policies : Policies := {}
  doubleReleases : Nat := 0
  phase : Phase := .select
  jobs : List Batch := []
  /-- The jobs that workers execute. -/
  running : List Batch := []
  completions : List Completion := []
  answered : List (Request × Result) := []

/-- Requests that are batched with a command, as many as there is room for, and the others. -/
def gather (kind : Kind) : Nat → List Request → List Request × List Request
  | _, [] => ([], [])
  | 0, r :: pending => ([], r :: pending)
  | room + 1, r :: pending =>
    if compatible kind r.op.kind then
      let (taken, others) := gather kind room pending
      (r :: taken, others)
    else
      let (taken, others) := gather kind (room + 1) pending
      (taken, r :: others)

/-- The requests that go with a command, and the others. -/
def batchWith (cfg : Config) (first : Request) (others : List Request) :
    List Request × List Request :=
  if first.op.kind.isRead then gather first.op.kind (cfg.maxBatch - 1) others else ([], others)

/-- The tokens when a request has taken its own, if it has one. -/
def acquire (owned : Owned) (r : Request) (now : Int) : Owned :=
  if r.token.valid then Function.update owned r.token (some { request := r.id, acquiredAt := now })
  else owned

/-- Notes how long the request has waited for its token. -/
def Request.settle (now : Int) (r : Request) : Request :=
  match r.waitingSince with
  | none => r
  | some since => { r with conflictWait := now - since }

def reactiveExposure (current maximum filteredDelayMicros : Int) : Int :=
  if filteredDelayMicros ≥ 1800 then if maximum - 2 < 1 then 1 else maximum - 2
  else if filteredDelayMicros ≤ 1400 then maximum
  else current

namespace Plant

def arrive (w : Plant) (r : Request) (now : Int) : Plant :=
  { w with
    pending := (w.pending ++ [{ r with token := (conflictToken r.op).1 }]).insertionSort
      fun a b => a.op.sequence ≤ b.op.sequence
    phase := .ready now }

/-- One round of dispatching: the next job, if there is one. -/
def dispatchNext (cfg : Config) (now : Int) (w : Plant) : Plant × Option Batch :=
  if w.active < w.exposure then
    let (choice, policies) := selectRequest cfg w.pending w.owned now w.policies
    let pending := markWaiting w.owned now w.pending
    match choice with
    | none => ({ w with pending := pending, policies := policies, phase := .select }, none)
    | some index =>
      match pending[index]? with
      | none => ({ w with pending := pending, policies := policies, phase := .select }, none)
      | some first =>
        let (taken, others) := batchWith cfg first (pending.eraseIdx index)
        ({ w with
            pending := others
            policies := policies
            owned := acquire w.owned first now
            active := w.active + 1 },
          some { requests := (first :: taken).map (·.settle now), dispatched := now })
  else ({ w with phase := .select }, none)

def complete (w : Plant) (done : Completion) (rest : List Completion) : Plant :=
  { w with
    completions := rest
    active := w.active - 1
    phase := .finishing done done.job.requests }

def result (done : Completion) (r : Request) : Result where
  err := done.err
  queueTime := done.started - r.queuedAt
  service := done.finished - done.started
  conflictWait := r.conflictWait
  batchSize := done.job.requests.length
  priority := ((command r.op.kind).getD {}).priority

def release (w : Plant) (done : Completion) (r : Request) (rest : List Request) : Plant :=
  let w :=
    if r.token.valid then
      if (w.owned r.token).any (·.request == r.id) then
        { w with owned := Function.update w.owned r.token none }
      else { w with doubleReleases := w.doubleReleases + 1 }
    else w
  { w with
    answered := w.answered ++ [(r, result done r)]
    phase := .finishing done rest }

def tick (cfg : Config) (w : Plant) (now delay : Int) : Plant :=
  { w with
    exposure :=
      if cfg.strategy = .reactive then reactiveExposure w.exposure cfg.workers delay
      else w.exposure
    phase := .ready now }

end Plant

/-- What a step shows to the outside. -/
inductive Label where
  | receive (r : Request)
  | internal
  | answer (r : Request) (result : Result)
  | stop

inductive Step (cfg : Config) : Plant → Label → Plant → Prop
  | arrive {w : Plant} (r : Request) (now : Int) (idle : w.phase = .select) :
      Step cfg w (.receive r) (w.arrive r now)
  | dispatch {w t : Plant} {now : Int} {job : Batch} (ready : w.phase = .ready now)
      (next : w.dispatchNext cfg now = (t, some job)) (room : w.jobs.length < cfg.workers) :
      Step cfg w .internal { t with jobs := t.jobs ++ [job] }
  | rest {w t : Plant} {now : Int} (ready : w.phase = .ready now)
      (next : w.dispatchNext cfg now = (t, none)) : Step cfg w .internal t
  | work {w : Plant} {job : Batch} {jobs : List Batch} (queued : w.jobs = job :: jobs)
      (free : w.running.length < cfg.workers) :
      Step cfg w .internal { w with jobs := jobs, running := job :: w.running }
  | finish {w : Plant} {job : Batch} {before behind : List Batch} (err : Option String)
      (started finished : Int) (running : w.running = before ++ job :: behind)
      (room : w.completions.length < cfg.workers) :
      Step cfg w .internal
        { w with
          running := before ++ behind
          completions := w.completions ++ [⟨job, err, started, finished⟩] }
  | complete {w : Plant} {done : Completion} {rest : List Completion} (idle : w.phase = .select)
      (queued : w.completions = done :: rest) : Step cfg w .internal (w.complete done rest)
  | answer {w : Plant} {done : Completion} {r : Request} {rest : List Request}
      (finishing : w.phase = .finishing done (r :: rest)) :
      Step cfg w (.answer r (Plant.result done r)) (w.release done r rest)
  | finished {w : Plant} {done : Completion} (finishing : w.phase = .finishing done []) :
      Step cfg w .internal { w with phase := .ready done.finished }
  | tick {w : Plant} (now delay : Int) (idle : w.phase = .select) :
      Step cfg w .internal (w.tick cfg now delay)
  | stop {w : Plant} (idle : w.phase = .select) : Step cfg w .stop { w with phase := .stopped }

def Label.received : Label → List Nat
  | receive r => [r.id]
  | _ => []

def Label.answered : Label → List Nat
  | answer r _ => [r.id]
  | _ => []

/-- A plant that can be reached, and the requests that it has received; no request is sent
twice. -/
inductive Reach (cfg : Config) : List Nat → Plant → Prop
  | start (controlled : cfg.strategy ≠ .none) : Reach cfg [] { exposure := cfg.workers }
  | step {ids : List Nat} {w t : Plant} {l : Label} (before : Reach cfg ids w)
      (next : Step cfg w l t) (new : ∀ r, l = .receive r → r.id ∉ ids) :
      Reach cfg (l.received ++ ids) t

/-! ## Where requests are -/

namespace Plant

/-- The requests of the job that is being answered which have not been answered yet. -/
def unfinished (w : Plant) : List Request :=
  match w.phase with
  | .finishing _ rest => rest
  | _ => []

/-- The jobs that have been dispatched and whose completion has not been received. -/
def inFlight (w : Plant) : List Batch := w.jobs ++ w.running ++ w.completions.map (·.job)

def dispatched (w : Plant) : List Request := w.inFlight.flatMap (·.requests) ++ w.unfinished

def held (w : Plant) : List Nat := w.pending.map Request.id ++ w.dispatched.map Request.id

end Plant

/-- What tells requests apart, and what decides on their tokens. -/
def Request.key (r : Request) : Nat × Operation × ConflictToken := (r.id, r.op, r.token)

@[simp] theorem key_settle (now : Int) (r : Request) : (r.settle now).key = r.key := by
  unfold Request.settle
  split <;> rfl

theorem map_id_settle (now : Int) (rs : List Request) :
    (rs.map (·.settle now)).map Request.id = rs.map Request.id := by
  rw [List.map_map]
  exact List.map_congr_left fun r _ => congrArg (·.1) (key_settle now r)

theorem map_key_markWaiting (owned : Owned) (now : Int) (pending : List Request) :
    (markWaiting owned now pending).map Request.key = pending.map Request.key := by
  rw [markWaiting, List.map_map]
  refine List.map_congr_left fun r _ => ?_
  simp only [Function.comp_apply]
  split <;> rfl

theorem perm_gather (kind : Kind) (room : Nat) (pending : List Request) :
    ((gather kind room pending).1 ++ (gather kind room pending).2).Perm pending := by
  fun_induction gather kind room pending with
  | case1 => exact .nil
  | case2 => exact .refl _
  | case3 room r pending same taken others eq ih =>
    rw [eq] at ih
    exact .cons r ih
  | case4 room r pending other taken others eq ih =>
    rw [eq] at ih
    exact List.perm_middle.trans (.cons r ih)

theorem compatible_of_mem_gather {kind : Kind} {room : Nat} {pending : List Request} :
    ∀ r ∈ (gather kind room pending).1, compatible kind r.op.kind = true := by
  fun_induction gather kind room pending with
  | case1 => simp
  | case2 => simp
  | case3 room r pending same taken others eq ih =>
    rw [eq] at ih
    exact List.forall_mem_cons.mpr ⟨same, ih⟩
  | case4 room r pending other taken others eq ih =>
    rw [eq] at ih
    exact ih

theorem batchWith_spec (cfg : Config) (first : Request) (others : List Request) :
    ((batchWith cfg first others).1 ++ (batchWith cfg first others).2).Perm others ∧
      ∀ r ∈ (batchWith cfg first others).1, compatible first.op.kind r.op.kind = true := by
  unfold batchWith
  split
  · exact ⟨perm_gather _ _ _, compatible_of_mem_gather⟩
  · exact ⟨.refl _, by simp⟩

section Rounds

variable {cfg : Config} {now : Int} {w t : Plant} {job : Batch}

/-- A round in which nothing is dispatched. -/
theorem dispatchNext_none (eq : w.dispatchNext cfg now = (t, none)) : ∃ pending policies,
    t = { w with pending := pending, policies := policies, phase := .select } ∧
      pending.map Request.key = w.pending.map Request.key := by
  have marked := map_key_markWaiting w.owned now w.pending
  unfold Plant.dispatchNext at eq
  split at eq
  · simp only at eq
    split at eq
    · cases eq
      exact ⟨_, _, rfl, marked⟩
    · split at eq
      · cases eq
        exact ⟨_, _, rfl, marked⟩
      · cases eq
  · cases eq
    exact ⟨_, _, rfl, rfl⟩

/-- A round that dispatches a job: the chosen request, whose token nobody owns, and reads that go
with it. -/
theorem dispatchNext_some (eq : w.dispatchNext cfg now = (t, some job)) :
    ∃ first taken others policies, w.active < w.exposure ∧
      t = { w with
        pending := others
        policies := policies
        owned := acquire w.owned first now
        active := w.active + 1 } ∧
      job = { requests := (first :: taken).map (·.settle now), dispatched := now } ∧
      ((first :: taken ++ others).map Request.key).Perm (w.pending.map Request.key) ∧
      first.busy w.owned = false ∧ ∀ r ∈ taken, compatible first.op.kind r.op.kind = true := by
  have marked := map_key_markWaiting w.owned now w.pending
  unfold Plant.dispatchNext at eq
  split at eq
  · rename_i less
    simp only at eq
    split at eq
    · cases eq
    · rename_i index choice
      split at eq
      · cases eq
      · rename_i first found
        obtain ⟨r, place, free⟩ := selectRequest_eligible (Prod.ext choice rfl)
        have same : first.key = r.key := by
          have keys := congrArg (·[index]?) marked
          simpa [found, place] using keys
        have token : first.token = r.token := congrArg (·.2.2) same
        have busy : first.busy w.owned = false := by
          rw [Request.busy, token]
          exact free
        obtain ⟨perm, fits⟩ := batchWith_spec cfg first
          ((markWaiting w.owned now w.pending).eraseIdx index)
        cases eq
        refine ⟨first, _, _, _, less, rfl, rfl, ?_, busy, fits⟩
        obtain ⟨bound, at_⟩ := List.getElem?_eq_some_iff.mp found
        have whole := List.getElem_cons_eraseIdx_perm bound
        rw [at_] at whole
        have keys := ((perm.cons first).trans whole).map Request.key
        rwa [marked] at keys
  · cases eq

end Rounds

/-! ## What a step does -/

/-- A step that moves dispatched requests from one place to another at most. -/
structure Quiet (cfg : Config) (w t : Plant) : Prop where
  pending : (t.pending.map Request.key).Perm (w.pending.map Request.key)
  dispatched : t.dispatched.Perm w.dispatched
  answered : t.answered = w.answered
  owned : t.owned = w.owned
  clean : t.doubleReleases = w.doubleReleases
  active : t.active + w.inFlight.length = w.active + t.inFlight.length
  bound : t.active ≤ w.active
  exposure : w.exposure ≤ cfg.workers → t.exposure ≤ cfg.workers

/-- What a step can do to the requests. -/
inductive Does (cfg : Config) (w : Plant) : Label → Plant → Prop
  | arrive (r : Request) (now : Int) (idle : w.phase = .select) :
      Does cfg w (.receive r) (w.arrive r now)
  | dispatch {t : Plant} {now : Int} {job : Batch} (ready : w.phase = .ready now)
      (next : w.dispatchNext cfg now = (t, some job)) :
      Does cfg w .internal { t with jobs := t.jobs ++ [job] }
  | answer {done : Completion} {r : Request} {rest : List Request}
      (finishing : w.phase = .finishing done (r :: rest)) :
      Does cfg w (.answer r (Plant.result done r)) (w.release done r rest)
  | internal {t : Plant} (quiet : Quiet cfg w t) : Does cfg w .internal t
  | stop {t : Plant} (quiet : Quiet cfg w t) : Does cfg w .stop t

theorem perm_ids {as bs : List Request} (keys : (as.map Request.key).Perm (bs.map Request.key)) :
    (as.map Request.id).Perm (bs.map Request.id) := by
  have ids := keys.map Prod.fst
  rwa [List.map_map, List.map_map] at ids

variable {r : Request} {owned : Owned}

section Steps

variable {cfg : Config} {w t : Plant}

/-- The dispatcher goes on, and the jobs in flight stay where they are. -/
theorem Quiet.goOn (pending : (t.pending.map Request.key).Perm (w.pending.map Request.key))
    (unfinished : t.unfinished = w.unfinished) (jobs : t.inFlight = w.inFlight)
    (answered : t.answered = w.answered) (owned : t.owned = w.owned)
    (clean : t.doubleReleases = w.doubleReleases) (active : t.active = w.active)
    (exposure : w.exposure ≤ cfg.workers → t.exposure ≤ cfg.workers) : Quiet cfg w t where
  pending := pending
  dispatched := by rw [Plant.dispatched, Plant.dispatched, unfinished, jobs]
  answered := answered
  owned := owned
  clean := clean
  active := by rw [active, jobs]
  bound := active.le
  exposure := exposure

/-- A job goes on to the next place, and the dispatcher stays where it is. -/
theorem Quiet.passOn {jobs running : List Batch} {completions : List Completion}
    (moved : (jobs ++ running ++ completions.map Completion.job).Perm w.inFlight) :
    Quiet cfg w { w with jobs := jobs, running := running, completions := completions } where
  pending := .refl _
  dispatched := .append_right _ (.flatMap_right _ moved)
  answered := rfl
  owned := rfl
  clean := rfl
  active := congrArg (w.active + Nat.cast ·) moved.length_eq.symm
  bound := le_rfl
  exposure := id

theorem reactiveExposure_le {current maximum delay : Int} (bound : current ≤ maximum)
    (positive : 0 < maximum) : reactiveExposure current maximum delay ≤ maximum := by
  unfold reactiveExposure
  split_ifs <;> omega

theorem Plant.exposure_tick (now delay : Int) (bound : w.exposure ≤ cfg.workers) :
    (w.tick cfg now delay).exposure ≤ cfg.workers := by
  simp only [Plant.tick]
  split
  · exact reactiveExposure_le bound (by exact_mod_cast cfg.workers_pos)
  · exact bound

theorem Plant.pending_arrive (r : Request) (now : Int) :
    (w.arrive r now).pending.Perm ({ r with token := (conflictToken r.op).1 } :: w.pending) :=
  (List.perm_insertionSort _ _).trans (List.perm_append_singleton _ _)

theorem Plant.dispatched_arrive (r : Request) (now : Int) (idle : w.phase = .select) :
    (w.arrive r now).dispatched = w.dispatched := by
  simp [Plant.dispatched, Plant.arrive, Plant.inFlight, Plant.unfinished, idle]

theorem Plant.dispatched_send {now : Int} {job : Batch} (ready : w.phase = .ready now)
    (next : w.dispatchNext cfg now = (t, some job)) :
    (Plant.dispatched { t with jobs := t.jobs ++ [job] }).Perm (job.requests ++ w.dispatched) := by
  obtain ⟨first, taken, others, policies, -, rfl, rfl, -⟩ := dispatchNext_some next
  simp only [Plant.dispatched, Plant.inFlight, Plant.unfinished, ready, List.flatMap_append,
    List.flatMap_singleton, List.append_nil, List.append_assoc]
  exact List.perm_append_comm_assoc _ _ _

theorem Plant.dispatched_release {done : Completion} {rest : List Request}
    (finishing : w.phase = .finishing done (r :: rest)) :
    w.dispatched.Perm (r :: (w.release done r rest).dispatched) := by
  have before : w.dispatched = w.inFlight.flatMap (·.requests) ++ r :: rest := by
    simp [Plant.dispatched, Plant.unfinished, finishing]
  have after : (w.release done r rest).dispatched = w.inFlight.flatMap (·.requests) ++ rest := by
    unfold Plant.release
    split_ifs <;> rfl
  rw [before, after]
  exact List.perm_middle

theorem Step.does {l : Label} (next : Step cfg w l t) : Does cfg w l t := by
  cases next with
  | arrive r now idle => exact .arrive r now idle
  | dispatch ready next room => exact .dispatch ready next
  | answer finishing => exact .answer finishing
  | rest ready next =>
    obtain ⟨pending, policies, rfl, keys⟩ := dispatchNext_none next
    have unfinished : w.unfinished = [] := by simp [Plant.unfinished, ready]
    exact .internal (.goOn (keys ▸ .refl _) unfinished.symm rfl rfl rfl rfl rfl id)
  | @work job jobs queued free =>
    refine .internal (.passOn (.append_right _ ?_))
    rw [queued]
    exact List.perm_middle
  | @finish job before behind err started finished running room =>
    refine .internal (.passOn ?_)
    rw [Plant.inFlight, running, List.map_append, ← List.append_assoc,
      ← List.append_assoc w.jobs, ← List.append_assoc w.jobs]
    exact (List.perm_append_singleton _ _).trans (.append_right _ List.perm_middle.symm)
  | @complete done rest idle queued =>
    refine .internal
      { pending := .refl _
        dispatched := ?_
        answered := rfl
        owned := rfl
        clean := rfl
        active := ?_
        bound := by simp [Plant.complete]
        exposure := id }
    · simp only [Plant.dispatched, Plant.complete, Plant.inFlight, Plant.unfinished, idle, queued,
        List.map_cons, List.flatMap_append, List.flatMap_cons, List.append_assoc, List.append_nil]
      exact .append_left _ (.append_left _ List.perm_append_comm)
    · simp only [Plant.inFlight, Plant.complete, queued, List.length_append, List.length_map,
        List.length_cons]
      omega
  | finished finishing =>
    have unfinished : w.unfinished = [] := by simp [Plant.unfinished, finishing]
    exact .internal (.goOn (.refl _) unfinished.symm rfl rfl rfl rfl rfl id)
  | tick now delay idle =>
    have unfinished : w.unfinished = [] := by simp [Plant.unfinished, idle]
    exact .internal (.goOn (.refl _) unfinished.symm rfl rfl rfl rfl rfl
      (Plant.exposure_tick now delay))
  | stop idle =>
    have unfinished : w.unfinished = [] := by simp [Plant.unfinished, idle]
    exact .stop (.goOn (.refl _) unfinished.symm rfl rfl rfl rfl rfl id)

/-- A request is held from the step that receives it to the step that answers it. -/
theorem Does.held {l : Label} (does : Does cfg w l t) :
    (l.answered ++ t.held).Perm (l.received ++ w.held) := by
  cases does with
  | arrive r now idle =>
    rw [Plant.held, Plant.dispatched_arrive r now idle]
    exact .append_right _ ((Plant.pending_arrive r now).map Request.id)
  | dispatch ready next =>
    have sent := (Plant.dispatched_send ready next).map Request.id
    obtain ⟨first, taken, others, policies, -, rfl, rfl, keys, -⟩ := dispatchNext_some next
    rw [List.map_append, map_id_settle] at sent
    have chosen := perm_ids keys
    rw [List.map_append] at chosen
    refine (sent.append_left _).trans ?_
    rw [← List.append_assoc]
    exact .append_right _ (List.perm_append_comm.trans chosen)
  | answer finishing =>
    have pending : ∀ done r rest, (w.release done r rest).pending = w.pending := by
      intro done r rest
      unfold Plant.release
      split_ifs <;> rfl
    have released := (Plant.dispatched_release finishing).map Request.id
    rw [Plant.held, Plant.held, pending]
    exact (List.perm_append_comm_assoc [_] _ _).trans (.append_left _ released.symm)
  | internal quiet | stop quiet => exact (perm_ids quiet.pending).append (quiet.dispatched.map _)

end Steps

/-! ## Exclusion -/

/-- Every request is in one place, and the tokens are owned by those requests that are dispatched
and not answered. -/
structure Inv (cfg : Config) (ids : List Nat) (w : Plant) : Prop where
  places : (w.pending.map Request.id ++ w.dispatched.map Request.id ++
    w.answered.map (·.1.id)).Perm ids
  distinct : ids.Nodup
  tokens : ∀ r ∈ w.pending, r.token = (conflictToken r.op).1
  owners : ∀ t o, w.owned t = some o →
    ∃ r ∈ w.dispatched, r.id = o.request ∧ r.token = t ∧ t.valid = true
  owned : ∀ r ∈ w.dispatched, r.token.valid = true →
    ∃ o, w.owned r.token = some o ∧ o.request = r.id
  clean : w.doubleReleases = 0
  active : w.active = w.inFlight.length
  bound : w.active ≤ cfg.workers
  exposure : w.exposure ≤ cfg.workers

theorem tokens_of_perm {as bs : List Request}
    (keys : (as.map Request.key).Perm (bs.map Request.key))
    (tokens : ∀ r ∈ bs, r.token = (conflictToken r.op).1) :
    ∀ r ∈ as, r.token = (conflictToken r.op).1 := by
  intro r mem
  obtain ⟨s, listed, same⟩ := List.mem_map.mp (keys.subset (List.mem_map_of_mem mem))
  have token := tokens s listed
  have op : s.op = r.op := congrArg (·.2.1) same
  have eq : s.token = r.token := congrArg (·.2.2) same
  rw [← eq, token, op]

theorem acquire_self (valid : r.token.valid = true) (now : Int) :
    acquire owned r now r.token = some { request := r.id, acquiredAt := now } := by
  simp [acquire, valid]

theorem acquire_of_ne {t : ConflictToken} (other : t ≠ r.token) (now : Int) :
    acquire owned r now t = owned t := by
  unfold acquire
  split
  · exact Function.update_of_ne other _ _
  · rfl

theorem acquire_of_invalid (invalid : r.token.valid = false) (now : Int) :
    acquire owned r now = owned := by
  simp [acquire, invalid]

namespace Inv

variable {cfg : Config} {ids : List Nat} {w t : Plant}

/-- A step that neither receives, dispatches nor answers a request. -/
theorem move (inv : Inv cfg ids w) (quiet : Quiet cfg w t) : Inv cfg ids t where
  places := by
    rw [quiet.answered]
    exact (((perm_ids quiet.pending).append (quiet.dispatched.map _)).append_right _).trans
      inv.places
  distinct := inv.distinct
  tokens := tokens_of_perm quiet.pending inv.tokens
  owners := by
    intro token o eq
    rw [quiet.owned] at eq
    obtain ⟨r, mem, rest⟩ := inv.owners token o eq
    exact ⟨r, quiet.dispatched.symm.subset mem, rest⟩
  owned := by
    intro r mem valid
    rw [quiet.owned]
    exact inv.owned r (quiet.dispatched.subset mem) valid
  clean := quiet.clean.trans inv.clean
  active := by
    have active := inv.active
    have moved := quiet.active
    omega
  bound := quiet.bound.trans inv.bound
  exposure := quiet.exposure inv.exposure

theorem start (cfg : Config) : Inv cfg [] { exposure := cfg.workers } where
  places := .nil
  distinct := .nil
  tokens := by simp
  owners := by simp
  owned := by simp [Plant.dispatched, Plant.inFlight, Plant.unfinished]
  clean := rfl
  active := rfl
  bound := by simp
  exposure := le_rfl

theorem arrive (inv : Inv cfg ids w) (r : Request) (now : Int) (idle : w.phase = .select)
    (new : r.id ∉ ids) : Inv cfg (r.id :: ids) (w.arrive r now) := by
  have perm := Plant.pending_arrive (w := w) r now
  have dispatched := Plant.dispatched_arrive r now idle
  exact
    { places := ((@Does.arrive cfg w r now idle).held.append_right _).trans
        (inv.places.cons r.id)
      distinct := List.nodup_cons.mpr ⟨new, inv.distinct⟩
      tokens := fun q mem => (List.mem_cons.mp (perm.subset mem)).elim
        (fun same => same ▸ rfl) (inv.tokens q)
      owners := by
        rw [dispatched]
        exact inv.owners
      owned := by
        rw [dispatched]
        exact inv.owned
      clean := inv.clean
      active := inv.active
      bound := inv.bound
      exposure := inv.exposure }

theorem distinct_dispatched (inv : Inv cfg ids w) : (w.dispatched.map Request.id).Nodup := by
  have all := inv.places.nodup_iff.mpr inv.distinct
  exact (List.nodup_append.mp (List.nodup_append.mp all).1).2.1

theorem dispatch (inv : Inv cfg ids w) {now : Int} {job : Batch} (ready : w.phase = .ready now)
    (next : w.dispatchNext cfg now = (t, some job)) :
    Inv cfg ids { t with jobs := t.jobs ++ [job] } := by
  have held := (Does.dispatch ready next).held
  have dispatched := Plant.dispatched_send ready next
  obtain ⟨first, taken, others, policies, less, rfl, rfl, keys, free, fits⟩ :=
    dispatchNext_some next
  have id (r : Request) : (r.settle now).id = r.id := congrArg (·.1) (key_settle now r)
  have token (r : Request) : (r.settle now).token = r.token := congrArg (·.2.2) (key_settle now r)
  have tokens := tokens_of_perm keys inv.tokens
  -- Only the first request of the job has a token.
  have reads : ∀ r ∈ taken, r.token.valid = false := by
    intro r mem
    rw [tokens r (by simp [mem])]
    exact token_of_compatible (fits r mem)
  have unowned : first.token.valid = true → w.owned first.token = none := by
    intro valid
    simpa [Request.busy, valid] using free
  have keep : ∀ r ∈ w.dispatched, r.token.valid = true → r.token ≠ first.token := by
    intro r mem valid same
    obtain ⟨o, owner, -⟩ := inv.owned r mem valid
    rw [same] at owner valid
    rw [unowned valid] at owner
    cases owner
  refine
    { places := ?_
      distinct := inv.distinct
      tokens := fun r mem => tokens r (List.mem_append_right _ mem)
      owners := ?_
      owned := ?_
      clean := inv.clean
      active := ?_
      bound := ?_
      exposure := inv.exposure }
  · exact (held.append_right _).trans inv.places
  · intro t o owner
    change acquire w.owned first now t = some o at owner
    by_cases new : first.token.valid = true ∧ t = first.token
    · obtain ⟨valid, rfl⟩ := new
      rw [acquire_self valid] at owner
      cases owner
      exact ⟨first.settle now, dispatched.symm.subset (by simp), id first, token first, valid⟩
    · have same : acquire w.owned first now t = w.owned t := by
        by_cases valid : first.token.valid = true
        · exact acquire_of_ne (fun eq => new ⟨valid, eq⟩) now
        · rw [acquire_of_invalid (by simpa using valid)]
      obtain ⟨r, mem, rest⟩ := inv.owners t o (same.symm.trans owner)
      exact ⟨r, dispatched.symm.subset (List.mem_append_right _ mem), rest⟩
  · intro r mem valid
    change ∃ o, acquire w.owned first now r.token = some o ∧ o.request = r.id
    rcases List.mem_append.mp (dispatched.subset mem) with group | before
    · obtain ⟨q, listed, rfl⟩ := List.mem_map.mp group
      rw [token] at valid ⊢
      rw [id]
      rcases List.mem_cons.mp listed with rfl | batched
      · exact ⟨_, acquire_self valid now, rfl⟩
      · rw [reads q batched] at valid
        cases valid
    · rw [acquire_of_ne (keep r before valid)]
      exact inv.owned r before valid
  · have active := inv.active
    simp only [Plant.inFlight, List.length_append, List.length_map,
      List.length_singleton] at active ⊢
    omega
  · have exposure := inv.exposure
    simp only
    omega

theorem answer (inv : Inv cfg ids w) {done : Completion} {r : Request} {rest : List Request}
    (finishing : w.phase = .finishing done (r :: rest)) : Inv cfg ids (w.release done r rest) := by
  have held := (@Does.answer cfg w _ _ _ finishing).held
  have perm := Plant.dispatched_release finishing
  have listed : r ∈ w.dispatched := perm.symm.subset (List.mem_cons_self ..)
  -- The request owns its token, so this is no double release.
  have released : w.release done r rest =
      { w with
        owned := if r.token.valid then Function.update w.owned r.token none else w.owned
        answered := w.answered ++ [(r, Plant.result done r)]
        phase := .finishing done rest } := by
    unfold Plant.release
    by_cases valid : r.token.valid = true
    · obtain ⟨o, owner, same⟩ := inv.owned r listed valid
      simp [valid, owner, same]
    · simp [valid]
  rw [released] at held perm ⊢
  have after : Plant.dispatched { w with
      owned := if r.token.valid then Function.update w.owned r.token none else w.owned
      answered := w.answered ++ [(r, Plant.result done r)]
      phase := .finishing done rest } = w.inFlight.flatMap (·.requests) ++ rest := rfl
  rw [after] at perm
  have distinct := (perm.map Request.id).nodup_iff.mp inv.distinct_dispatched
  have other : ∀ q ∈ w.inFlight.flatMap (·.requests) ++ rest, q.token.valid = true →
      r.token.valid = true → q.token ≠ r.token := by
    intro q mem valid own same
    obtain ⟨o, owner, is⟩ := inv.owned q (perm.symm.subset (List.mem_cons_of_mem _ mem)) valid
    obtain ⟨p, owner', is'⟩ := inv.owned r listed own
    rw [same, owner'] at owner
    cases owner
    exact (List.nodup_cons.mp distinct).1 (List.mem_map.mpr ⟨q, mem, is.symm.trans is'⟩)
  refine
    { places := ?_
      distinct := inv.distinct
      tokens := inv.tokens
      owners := ?_
      owned := ?_
      clean := inv.clean
      active := inv.active
      bound := inv.bound
      exposure := inv.exposure }
  · rw [List.map_append (f := fun e : Request × Result => e.1.id), ← List.append_assoc]
    exact (List.perm_append_singleton _ _).trans ((held.append_right _).trans inv.places)
  · intro t o owner
    rw [after]
    have owner' : w.owned t = some o ∧ (r.token.valid = true → t ≠ r.token) := by
      simp only at owner
      split at owner
      · have other : t ≠ r.token := by
          rintro rfl
          simp at owner
        exact ⟨by rwa [Function.update_of_ne other] at owner, fun _ => other⟩
      · rename_i invalid
        exact ⟨owner, fun valid => absurd valid invalid⟩
    obtain ⟨q, mem, is, same, valid⟩ := inv.owners t o owner'.1
    rcases List.mem_cons.mp (perm.subset mem) with rfl | later
    · exact absurd same.symm (owner'.2 (same ▸ valid))
    · exact ⟨q, later, is, same, valid⟩
  · intro q mem valid
    rw [after] at mem
    obtain ⟨o, owner, same⟩ := inv.owned q (perm.symm.subset (List.mem_cons_of_mem _ mem)) valid
    refine ⟨o, ?_, same⟩
    simp only
    split
    · rename_i own
      rw [Function.update_of_ne (other q mem valid own)]
      exact owner
    · exact owner

/-- Every step keeps the requests apart and the tokens with their owners. -/
theorem step (inv : Inv cfg ids w) {l : Label} (next : Step cfg w l t)
    (new : ∀ r, l = .receive r → r.id ∉ ids) : Inv cfg (l.received ++ ids) t := by
  cases next.does with
  | arrive r now idle => exact inv.arrive r now idle (new r rfl)
  | dispatch ready chosen => exact inv.dispatch ready chosen
  | answer finishing => exact inv.answer finishing
  | internal quiet => exact inv.move quiet
  | stop quiet => exact inv.move quiet

end Inv

theorem Reach.inv {cfg : Config} {ids : List Nat} {w : Plant} (reach : Reach cfg ids w) :
    Inv cfg ids w := by
  induction reach with
  | start controlled => exact .start cfg
  | step before next new ih => exact ih.step next new

/-- In every state of the dispatcher the tokens are owned by exactly the requests that are
dispatched and not answered, no two of which have the same one; no token is released twice; there
are no more active jobs than workers, so that the channel has room for the next job; and every
request that was received is in one place. -/
theorem conflictDispatch_exclusive {cfg : Config} {ids : List Nat} {w : Plant}
    (reach : Reach cfg ids w) :
    (∀ t, (w.owned t).isSome = true ↔ t.valid = true ∧ ∃ r ∈ w.dispatched, r.token = t) ∧
      ((w.dispatched.filter (·.token.valid)).map Request.token).Nodup ∧
      w.doubleReleases = 0 ∧ w.active ≤ cfg.workers ∧
      (∀ now, w.phase = .ready now → w.active < w.exposure → w.jobs.length < cfg.workers) ∧
      (w.pending.map Request.id ++ w.dispatched.map Request.id ++
        w.answered.map (·.1.id)).Perm ids ∧ ids.Nodup := by
  have inv := reach.inv
  refine ⟨fun t => ⟨fun owned => ?_, ?_⟩, ?_, inv.clean, inv.bound, ?_, inv.places, inv.distinct⟩
  · obtain ⟨o, owner⟩ := Option.isSome_iff_exists.mp owned
    obtain ⟨r, mem, -, token, valid⟩ := inv.owners t o owner
    exact ⟨valid, r, mem, token⟩
  · rintro ⟨valid, r, mem, rfl⟩
    obtain ⟨o, owner, -⟩ := inv.owned r mem valid
    rw [owner]
    rfl
  · rw [List.Nodup, List.pairwise_map]
    have ids := List.pairwise_map.mp inv.distinct_dispatched
    refine (List.Pairwise.filter _ ids).imp_of_mem fun {q r} first later different same => ?_
    obtain ⟨mem, valid⟩ := List.mem_filter.mp first
    obtain ⟨mem', valid'⟩ := List.mem_filter.mp later
    obtain ⟨o, owner, is⟩ := inv.owned q mem valid
    obtain ⟨p, owner', is'⟩ := inv.owned r mem' valid'
    rw [same, owner'] at owner
    cases owner
    exact different (is.symm.trans is')
  · intro now ready less
    have active := inv.active
    have exposure := inv.exposure
    simp only [Plant.inFlight, List.length_append] at active
    omega

/-- With two workers the first order of customer 7 and one of customer 8 are dispatched and own
their tokens, while the second order of customer 7 waits. -/
theorem dispatched_orders_own : ∃ (cfg : Config) (w : Plant), cfg.workers = 2 ∧
    w.pending.map Request.id = [1] ∧ w.dispatched.map Request.id = [0, 2] ∧ w.active ≤ 2 ∧
    (∃ r ∈ w.dispatched, r.token = { domain := .orders, key := 7 }) ∧
    (∃ r ∈ w.dispatched, r.token = { domain := .orders, key := 8 }) ∧
    ((w.dispatched.filter (·.token.valid)).map Request.token).Nodup := by
  let cfg : Config := newScheduler .centralized 4 2 2 0 false
  let order (id : Nat) (customer : Int64) : Request :=
    { id := id, op := ⟨.ofNat id, .orderWrite, customer, 0⟩, queuedAt := 0 }
  have first : Reach cfg [0] _ := .step (.start (by decide)) (.arrive (order 0 7) 0 rfl) (by simp)
  have sent : Reach cfg [0] _ := .step first (.dispatch rfl rfl (by decide)) (by simp)
  have idle : Reach cfg [0] _ := .step sent (.rest rfl rfl) (by simp)
  have second : Reach cfg [1, 0] _ := .step idle (.arrive (order 1 7) 1 rfl) (by simp [order])
  have waits : Reach cfg [1, 0] _ := .step second (.rest rfl rfl) (by simp)
  have third : Reach cfg [2, 1, 0] _ := .step waits (.arrive (order 2 8) 2 rfl) (by simp [order])
  have both : Reach cfg [2, 1, 0] _ := .step third (.dispatch rfl rfl (by decide)) (by simp)
  obtain ⟨owned, distinct, -, bound, -⟩ := conflictDispatch_exclusive both
  exact ⟨cfg, _, rfl, rfl, rfl, bound, ((owned _).mp rfl).2, ((owned _).mp rfl).2, distinct⟩

theorem length_gather (kind : Kind) (room : Nat) (pending : List Request) :
    (gather kind room pending).1.length ≤ room := by
  fun_induction gather kind room pending <;> grind

/-- A request and reads that go with it, within the limit. -/
def Batch.Proper (cfg : Config) (b : Batch) : Prop :=
  ∃ first taken, b.requests = first :: taken ∧ taken.length < cfg.maxBatch ∧
    ∀ r ∈ taken, compatible first.op.kind r.op.kind = true

theorem proper_dispatchNext {cfg : Config} {w t : Plant} {now : Int} {job : Batch}
    (next : w.dispatchNext cfg now = (t, some job)) : job.Proper cfg := by
  have op (r : Request) : (r.settle now).op = r.op := congrArg (·.2.1) (key_settle now r)
  have small (first : Request) (others : List Request) :
      (batchWith cfg first others).1.length < cfg.maxBatch := by
    grind [batchWith, length_gather, cfg.maxBatch_pos]
  unfold Plant.dispatchNext at next
  grind [Batch.Proper, batchWith_spec]

/-- In every run the jobs under way are a request with reads that go with it, within the limit, and
an answer gives the size of such a job. -/
theorem batches_proper {cfg : Config} {ids : List Nat} {w : Plant} (reach : Reach cfg ids w) :
    (∀ b ∈ w.inFlight, b.Proper cfg) ∧
      (∀ done rest, w.phase = .finishing done rest → done.job.Proper cfg) ∧
      ∀ a ∈ w.answered, 0 < a.2.batchSize ∧ a.2.batchSize ≤ cfg.maxBatch := by
  induction reach with
  | start => simp [Plant.inFlight]
  | step _ next _ ih =>
    cases next with
    | dispatch _ next =>
      have proper := proper_dispatchNext next
      obtain ⟨_, _, _, _, -, rfl, -⟩ := dispatchNext_some next
      grind [Plant.inFlight]
    | rest _ next =>
      obtain ⟨_, _, rfl, -⟩ := dispatchNext_none next
      grind [Plant.inFlight]
    | _ =>
      grind [Plant.inFlight, Plant.arrive, Plant.complete, Plant.release, Plant.tick, Plant.result,
        Batch.Proper]

/-- A read waits for the next one and is dispatched with it. -/
theorem batches_proper_reads : ∃ (cfg : Config) (w : Plant),
    w.inFlight.map (·.requests.map Request.id) = [[0, 1]] ∧ ∀ b ∈ w.inFlight, b.Proper cfg := by
  let cfg : Config := newScheduler .centralized 4 2 1 10 false
  let read (id : Nat) : Request := { id := id, op := ⟨.ofNat id, .pointRead, 7, 0⟩, queuedAt := 0 }
  have first : Reach cfg [0] _ := .step (.start (by decide)) (.arrive (read 0) 0 rfl) (by simp)
  have waits : Reach cfg [0] _ := .step first (.rest rfl rfl) (by simp)
  have second : Reach cfg [1, 0] _ := .step waits (.arrive (read 1) 1 rfl) (by simp [read])
  have sent : Reach cfg [1, 0] _ := .step second (.dispatch rfl rfl (by decide)) (by simp)
  exact ⟨cfg, _, rfl, (batches_proper sent).1⟩

end OctetDB.Scheduled
