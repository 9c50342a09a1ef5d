import OctetDB.Scheduled.Batcher

/-!
# Submit and Close

A request takes a unit of the capacity before it is put on the input channel. The unit is given
back when the request is answered, or by `Submit` itself if it withdraws. `Close` closes a channel,
which the dispatcher, a `Submit` that has not put its request yet, and nobody else looks at, and
waits for the dispatcher and the workers.

Both dispatchers are seen from the outside here: what they hold, and what they leave behind when
they stop.
-/

namespace OctetDB.Scheduled

/-- A dispatcher with its workers. -/
structure Machine where
  State : Type
  start : State
  /-- A step, with the number of admitted requests that it reads. -/
  step : Int → State → Label → State → Prop
  /-- The requests that have been received and are not answered. -/
  held : State → List Nat
  /-- Those of them that only the dispatcher can hand on. -/
  left : State → List Nat
  /-- The dispatcher has returned. -/
  stopped : State → Prop
  /-- The dispatcher and the workers have returned. -/
  halted : State → Prop
  held_start : held start = []
  held_step : ∀ {u s l t}, step u s l t → (l.answered ++ held t).Perm (l.received ++ held s)
  stopped_stop : ∀ {u s t}, step u s .stop t → stopped t ∧ (left t).Perm (left s)
  stopped_step : ∀ {u s l t}, stopped s → step u s l t →
    stopped t ∧ (left t).Perm (left s) ∧ l.received = []
  held_halted : ∀ {s}, stopped s → halted s → (held s).Perm (left s)

/-- The dispatcher that only batches. -/
def batching (cfg : Config) : Machine where
  State := Batcher
  start := {}
  step := BatchStep cfg
  held := Batcher.held
  left b := b.phase.hand.map Request.id
  stopped b := ∃ hand, b.phase = .stopped hand
  halted b := b.jobs = [] ∧ b.running = [] ∧ b.replying = []
  held_start := rfl
  held_step := BatchStep.held
  stopped_stop := by
    intro u s t next
    cases next with
    | stop waits goesOn => exact ⟨⟨_, rfl⟩, .refl _⟩
  stopped_step := by
    rintro u s l t ⟨hand, stopped⟩ next
    cases next with
    | first r idle => simp [stopped] at idle
    | carried carry => simp [stopped] at carry
    | join r gathering => simp [stopped] at gathering
    | deadline gathering => simp [stopped] at gathering
    | send sending room => simp [stopped] at sending
    | work | execute | answer | answered => exact ⟨⟨hand, stopped⟩, .refl _, rfl⟩
    | stop waits goesOn => exact absurd stopped (goesOn hand)
  held_halted := by
    rintro s - ⟨jobs, running, replying⟩
    simp [Batcher.held, Batcher.issued, jobs, running, replying]

/-- The dispatcher with a control strategy. -/
def controlled (cfg : Config) : Machine where
  State := Plant
  start := { exposure := cfg.workers }
  step _ := Step cfg
  held := Plant.held
  left := Plant.held
  stopped w := w.phase = .stopped
  halted w := w.jobs = [] ∧ w.running = []
  held_start := rfl
  held_step next := next.does.held
  stopped_stop := by
    intro u s t next
    have held := next.does.held
    cases next with
    | stop idle => exact ⟨rfl, held⟩
  stopped_step := by
    intro u s l t stopped next
    have held := next.does.held
    cases next with
    | arrive r now idle => simp [stopped] at idle
    | dispatch ready => simp [stopped] at ready
    | rest ready => simp [stopped] at ready
    | work | finish => exact ⟨stopped, held, rfl⟩
    | complete idle => simp [stopped] at idle
    | answer finishing => simp [stopped] at finishing
    | finished finishing => simp [stopped] at finishing
    | tick now delay idle => simp [stopped] at idle
    | stop idle => simp [stopped] at idle
  held_halted _ _ := .refl _

/-- The dispatcher that a scheduler starts. -/
def machine (cfg : Config) : Machine :=
  match cfg.strategy with
  | .none => batching cfg
  | _ => controlled cfg

/-! ## The scheduler -/

/-- Why a request is not admitted, by the number of admitted ones. -/
def admission (cfg : Config) (used : Int) (op : Operation) : Option String :=
  if used ≥ cfg.capacity then some "scheduler capacity exhausted"
  else if cfg.plainBatch then none
  else if (command op.kind).isNone then some "operation absent from execution plan"
  else if policyDecision used cfg.capacity op.kind .pointRead 0 cfg.maxBatch = .reject then
    some "scheduler capacity exhausted"
  else none

structure World (M : Machine) where
  used : Int := 0
  /-- Admitted, and not yet put on the input channel. -/
  entering : List Request := []
  /-- Returning without having been put on the channel, the unit not yet given back. -/
  withdrawing : List Nat := []
  withdrawn : List Nat := []
  input : List Request := []
  /-- All that have been put on the input channel. -/
  placed : List Nat := []
  machine : M.State
  /-- The results that have been sent, each to the channel of its request. -/
  results : List (Nat × Result) := []
  /-- Answered, the unit not yet given back. -/
  settling : List Nat := []
  settled : List Nat := []
  /-- The calls that wait for their result. -/
  waiting : List Nat := []
  closed : Bool := false
  /-- The dispatcher has returned. -/
  stopped : Bool := false
  /-- `Close` has returned. -/
  returned : Bool := false

/-- The steps that a condition can be about. -/
inductive Event where
  | accept (r : Request)
  | stop
  | other

def Event.admitted : Event → List Nat
  | accept r => [r.id]
  | _ => []

/-- The steps of callers, of the dispatcher with its workers, and of `Close`. The unit of an
answered request is given back at any time after the result has been sent. -/
inductive World.Step (cfg : Config) {M : Machine} : World M → Event → World M → Prop
  | refuse {w : World M} {op : Operation} {err : String}
      (refused : admission cfg w.used op = some err) : Step cfg w .other w
  /-- The number of admitted requests is still what was read when it is counted up. -/
  | accept {w : World M} (r : Request) (admitted : admission cfg w.used r.op = none) :
      Step cfg w (.accept r) { w with used := w.used + 1, entering := r :: w.entering }
  | enter {w : World M} {r : Request} {before behind : List Request}
      (entering : w.entering = before ++ r :: behind) (room : w.input.length < cfg.capacity) :
      Step cfg w .other
        { w with
          entering := before ++ behind
          input := w.input ++ [r]
          placed := r.id :: w.placed
          waiting := r.id :: w.waiting }
  /-- The context is done, or the scheduler is closed. -/
  | withdraw {w : World M} {r : Request} {before behind : List Request}
      (entering : w.entering = before ++ r :: behind) :
      Step cfg w .other
        { w with entering := before ++ behind, withdrawing := r.id :: w.withdrawing }
  | giveBack {w : World M} {id : Nat} {before behind : List Nat}
      (withdrawing : w.withdrawing = before ++ id :: behind) :
      Step cfg w .other
        { w with
          used := w.used - 1
          withdrawing := before ++ behind
          withdrawn := id :: w.withdrawn }
  | receive {w : World M} {r : Request} {input : List Request} {m : M.State}
      (queued : w.input = r :: input) (next : M.step w.used w.machine (.receive r) m) :
      Step cfg w .other { w with input := input, machine := m }
  | internal {w : World M} {m : M.State} (next : M.step w.used w.machine .internal m) :
      Step cfg w .other { w with machine := m }
  | answer {w : World M} {r : Request} {result : Result} {m : M.State}
      (next : M.step w.used w.machine (.answer r result) m) :
      Step cfg w .other
        { w with
          machine := m
          results := (r.id, result) :: w.results
          settling := r.id :: w.settling }
  | settle {w : World M} {id : Nat} {before behind : List Nat}
      (settling : w.settling = before ++ id :: behind) :
      Step cfg w .other
        { w with
          used := w.used - 1
          settling := before ++ behind
          settled := id :: w.settled }
  | take {w : World M} {id : Nat} {result : Result} {before behind : List Nat}
      (waiting : w.waiting = before ++ id :: behind) (sent : (id, result) ∈ w.results) :
      Step cfg w .other { w with waiting := before ++ behind }
  /-- The context is done while the result is waited for. -/
  | leave {w : World M} {id : Nat} {before behind : List Nat}
      (waiting : w.waiting = before ++ id :: behind) :
      Step cfg w .other { w with waiting := before ++ behind }
  | close {w : World M} : Step cfg w .other { w with closed := true }
  | stop {w : World M} {m : M.State} (closed : w.closed = true)
      (next : M.step w.used w.machine .stop m) :
      Step cfg w .stop { w with machine := m, stopped := true }
  | return {w : World M} (stopped : w.stopped = true) (halted : M.halted w.machine)
      (settled : w.settling = []) : Step cfg w .other { w with returned := true }

/-- A scheduler that can be reached by steps that are all allowed, and the requests that it has
admitted. -/
inductive Run (cfg : Config) {M : Machine} (allowed : World M → Event → Prop) :
    List Nat → World M → Prop
  | start : Run cfg allowed [] { machine := M.start }
  | step {ids : List Nat} {w v : World M} {e : Event} (before : Run cfg allowed ids w)
      (next : World.Step cfg w e v) (allows : allowed w e)
      (new : ∀ r, e = .accept r → r.id ∉ ids) : Run cfg allowed (e.admitted ++ ids) v

/-- Nothing is left behind: the dispatcher looks at the closed channel when no admitted request is
on its way to it or in its hands, and later no request is admitted. -/
def Calm {M : Machine} (w : World M) : Event → Prop
  | .accept _ => w.stopped = false
  | .stop => w.entering = [] ∧ w.withdrawing = [] ∧ w.input = [] ∧ M.left w.machine = []
  | .other => True

/-! ## The accounts -/

/-- The admitted requests that are neither answered nor withdrawn, up to the unit of the
capacity. -/
def World.outstanding {M : Machine} (w : World M) : List Nat :=
  w.entering.map Request.id ++ w.withdrawing ++ w.input.map Request.id ++ M.held w.machine ++
    w.settling

/-- Every admitted request is in one place, and has a unit until it is answered or withdrawn. -/
structure Accounts (cfg : Config) {M : Machine} (ids : List Nat) (w : World M) : Prop where
  used : w.used = w.outstanding.length
  bound : w.used ≤ cfg.capacity
  admitted : (w.outstanding ++ w.settled ++ w.withdrawn).Perm ids
  distinct : ids.Nodup
  placed : (w.input.map Request.id ++ M.held w.machine ++ w.results.map Prod.fst).Perm w.placed
  answered : (w.results.map Prod.fst).Perm (w.settling ++ w.settled)
  waiting : w.waiting ⊆ w.placed

theorem lt_of_admission {cfg : Config} {used : Int} {op : Operation}
    (admitted : admission cfg used op = none) : used < cfg.capacity := by
  unfold admission at admitted
  split at admitted
  · cases admitted
  · omega

namespace Accounts

variable {cfg : Config} {M : Machine} {ids : List Nat} {w v : World M}

theorem start : Accounts cfg [] ({ machine := M.start } : World M) where
  used := by simp [World.outstanding, M.held_start]
  bound := by simp
  admitted := by simp [World.outstanding, M.held_start]
  distinct := .nil
  placed := by simp [M.held_start]
  answered := .nil
  waiting := List.Subset.refl _

/-- A step that takes and gives back no unit. -/
theorem shift (acc : Accounts cfg ids w) (used : v.used = w.used)
    (outstanding : v.outstanding.Perm w.outstanding) (settled : v.settled = w.settled)
    (withdrawn : v.withdrawn = w.withdrawn)
    (placed : (v.input.map Request.id ++ M.held v.machine ++ v.results.map Prod.fst).Perm v.placed)
    (answered : (v.results.map Prod.fst).Perm (v.settling ++ v.settled))
    (waiting : v.waiting ⊆ v.placed) : Accounts cfg ids v where
  used := by rw [used, acc.used, outstanding.length_eq]
  bound := used ▸ acc.bound
  admitted := by
    rw [settled, withdrawn]
    exact ((outstanding.append_right _).append_right _).trans acc.admitted
  distinct := acc.distinct
  placed := placed
  answered := answered
  waiting := waiting

/-- A step of the dispatcher or of the workers that answers nothing. -/
theorem run (acc : Accounts cfg ids w) {input : List Request} {m : M.State} (stopped : Bool)
    (moved : (input.map Request.id ++ M.held m).Perm
      (w.input.map Request.id ++ M.held w.machine)) :
    Accounts cfg ids { w with input := input, machine := m, stopped := stopped } := by
  refine acc.shift rfl ?_ rfl rfl ((moved.append_right _).trans acc.placed) acc.answered
    acc.waiting
  refine .append_right _ ?_
  rw [List.append_assoc, List.append_assoc (_ ++ _) (w.input.map _)]
  exact .append_left _ moved

theorem giveBack (acc : Accounts cfg ids w) (id : Nat) (used : v.used = w.used - 1)
    (outstanding : w.outstanding.Perm (id :: v.outstanding))
    (done : (v.settled ++ v.withdrawn).Perm (id :: (w.settled ++ w.withdrawn)))
    (placed : (v.input.map Request.id ++ M.held v.machine ++ v.results.map Prod.fst).Perm v.placed)
    (answered : (v.results.map Prod.fst).Perm (v.settling ++ v.settled))
    (waiting : v.waiting ⊆ v.placed) : Accounts cfg ids v where
  used := by
    have length := outstanding.length_eq
    rw [List.length_cons] at length
    rw [used, acc.used]
    omega
  bound := by
    have bound := acc.bound
    omega
  admitted := by
    refine .trans ?_ acc.admitted
    rw [List.append_assoc, List.append_assoc]
    refine (done.append_left _).trans (List.perm_middle.trans ?_)
    exact outstanding.symm.append_right _
  distinct := acc.distinct
  placed := placed
  answered := answered
  waiting := waiting

theorem step (acc : Accounts cfg ids w) {e : Event} (next : World.Step cfg w e v)
    (new : ∀ r, e = .accept r → r.id ∉ ids) : Accounts cfg (e.admitted ++ ids) v := by
  cases next with
  | refuse => exact acc
  | accept r admitted =>
    have room := lt_of_admission admitted
    exact
      { used := by
          have used := acc.used
          simp only [World.outstanding, List.map_cons, List.cons_append, List.length_cons] at used ⊢
          omega
        bound := by
          simp only
          omega
        admitted := acc.admitted.cons r.id
        distinct := List.nodup_cons.mpr ⟨new r rfl, acc.distinct⟩
        placed := acc.placed
        answered := acc.answered
        waiting := acc.waiting }
  | @enter r before behind entering room =>
    refine acc.shift rfl ?_ rfl rfl ?_ acc.answered (List.cons_subset_cons _ acc.waiting)
    · refine .append_right _ (.append_right _ (List.perm_iff_count.mpr fun a => ?_))
      simp only [entering, List.map_append, List.map_cons, List.map_nil, List.count_append,
        List.count_cons, List.count_nil]
      omega
    · refine .trans ?_ (acc.placed.cons r.id)
      rw [List.map_append]
      exact .append_right _ (.append_right _ (List.perm_append_singleton _ _))
  | @withdraw r before behind entering =>
    refine acc.shift rfl ?_ rfl rfl acc.placed acc.answered acc.waiting
    refine .append_right _ (.append_right _ (.append_right _ (List.perm_iff_count.mpr fun a => ?_)))
    simp only [entering, List.map_append, List.map_cons, List.count_append, List.count_cons]
    omega
  | @giveBack id before behind withdrawing =>
    refine acc.giveBack id rfl ?_ List.perm_middle acc.placed acc.answered acc.waiting
    refine List.perm_iff_count.mpr fun a => ?_
    simp only [World.outstanding, withdrawing, List.count_append, List.count_cons]
    omega
  | @receive r input m queued next =>
    have held := M.held_step next
    refine acc.run w.stopped ?_
    rw [queued]
    exact (held.append_left _).trans List.perm_middle
  | internal next =>
    exact acc.run w.stopped (.append_left _ (M.held_step next))
  | @answer r result m next =>
    have held := M.held_step next
    refine acc.shift rfl ?_ rfl rfl ?_ (acc.answered.cons r.id) acc.waiting
    · rw [World.outstanding, World.outstanding, List.append_assoc _ (M.held w.machine)]
      refine .trans ?_ (.append_left _ (held.append_right _))
      rw [List.append_assoc]
      exact .append_left _ List.perm_middle
    · refine .trans ?_ acc.placed
      rw [List.append_assoc, List.append_assoc]
      exact .append_left _ (List.perm_middle.trans (held.append_right _))
  | @settle id before behind settling =>
    refine acc.giveBack id rfl ?_ (.refl _) acc.placed ?_ acc.waiting
    · refine List.perm_iff_count.mpr fun a => ?_
      simp only [World.outstanding, settling, List.count_append, List.count_cons]
      omega
    · refine acc.answered.trans (List.perm_iff_count.mpr fun a => ?_)
      simp only [settling, List.count_append, List.count_cons]
      omega
  | @take id result before behind waiting | @leave id before behind waiting =>
    refine acc.shift rfl (.refl _) rfl rfl acc.placed acc.answered fun a mem => ?_
    exact acc.waiting (waiting ▸ by simpa using (List.mem_append.mp mem).imp_right .inr)
  | close => exact acc.shift rfl (.refl _) rfl rfl acc.placed acc.answered acc.waiting
  | stop closed next => exact acc.run true (.append_left _ (M.held_step next))
  | «return» stopped halted settled =>
    exact acc.shift rfl (.refl _) rfl rfl acc.placed acc.answered acc.waiting

end Accounts

theorem Run.accounts {cfg : Config} {M : Machine} {allowed : World M → Event → Prop}
    {ids : List Nat} {w : World M} (run : Run cfg allowed ids w) : Accounts cfg ids w := by
  induction run with
  | start => exact .start
  | step before next allows new ih => exact ih.step next new

/-! ## Closing -/

/-- Once the dispatcher has returned only its workers have requests, and none when `Close` has
returned. -/
structure Drained {M : Machine} (w : World M) : Prop where
  stopped : w.stopped = true → M.stopped w.machine ∧ w.entering = [] ∧ w.withdrawing = [] ∧
    w.input = [] ∧ M.left w.machine = []
  returned : w.returned = true → w.stopped = true ∧ M.held w.machine = [] ∧ w.settling = []

namespace Drained

variable {cfg : Config} {M : Machine} {w v : World M}

/-- A machine that holds nothing and has stopped gets and answers nothing. -/
theorem silent {u : Int} {s t : M.State} {l : Label} (stopped : M.stopped s) (held : M.held s = [])
    (next : M.step u s l t) : M.held t = [] ∧ l.answered = [] := by
  have moved := M.held_step next
  rw [(M.stopped_step stopped next).2.2, held] at moved
  exact (List.append_eq_nil_iff.mp moved.eq_nil).symm

/-- A step of the dispatcher or of the workers that receives nothing. -/
theorem run (drained : Drained w) {m : M.State} {l : Label}
    (next : M.step w.used w.machine l m) (results : List (Nat × Result)) :
    Drained { w with machine := m, results := results, settling := l.answered ++ w.settling } where
  stopped is := by
    obtain ⟨stopped, entering, withdrawing, input, left⟩ := drained.stopped is
    obtain ⟨stops, same, -⟩ := M.stopped_step stopped next
    rw [left] at same
    exact ⟨stops, entering, withdrawing, input, same.eq_nil⟩
  returned is := by
    obtain ⟨stops, held, settling⟩ := drained.returned is
    obtain ⟨empty, silent⟩ := silent (drained.stopped stops).1 held next
    exact ⟨stops, empty, by rw [silent, settling]; rfl⟩

theorem step (drained : Drained w) {e : Event} (next : World.Step cfg w e v) (calm : Calm w e) :
    Drained v := by
  -- A step that needs a request on its way to the dispatcher is not taken behind the stop.
  have before {v : World M} (running : w.stopped = true → False) (same : v.stopped = w.stopped)
      (later : v.returned = w.returned) : Drained v :=
    { stopped is := (running (same ▸ is)).elim
      returned is := (running (drained.returned (later ▸ is)).1).elim }
  cases next with
  | refuse => exact drained
  | accept r admitted => exact before (by simp [show w.stopped = false from calm]) rfl rfl
  | enter entering | withdraw entering =>
    refine before (fun stops => ?_) rfl rfl
    simp [(drained.stopped stops).2.1] at entering
  | giveBack withdrawing =>
    refine before (fun stops => ?_) rfl rfl
    simp [(drained.stopped stops).2.2.1] at withdrawing
  | receive queued next =>
    refine before (fun stops => ?_) rfl rfl
    simp [(drained.stopped stops).2.2.2.1] at queued
  | internal next => exact drained.run next _
  | answer next => exact drained.run next _
  | settle settling =>
    refine { stopped := drained.stopped, returned := fun is => ?_ }
    simp [(drained.returned is).2.2] at settling
  | take | leave | close => exact { stopped := drained.stopped, returned := drained.returned }
  | stop closed next =>
    obtain ⟨entering, withdrawing, input, left⟩ := calm
    obtain ⟨stops, same⟩ := M.stopped_stop next
    rw [left] at same
    refine
      { stopped := fun _ => ⟨stops, entering, withdrawing, input, same.eq_nil⟩
        returned := fun is => ?_ }
    obtain ⟨-, held, settling⟩ := (drained.run next w.results).returned is
    exact ⟨rfl, held, settling⟩
  | «return» stopped halted settled =>
    obtain ⟨stops, -, -, -, left⟩ := drained.stopped stopped
    have held := M.held_halted stops halted
    rw [left] at held
    exact
      { stopped := drained.stopped
        returned := fun _ => ⟨stopped, held.eq_nil, settled⟩ }

end Drained

theorem Run.drained {cfg : Config} {M : Machine} {ids : List Nat} {w : World M}
    (run : Run cfg Calm ids w) : Drained w := by
  induction run with
  | start => exact { stopped := nofun, returned := nofun }
  | step before next calm new ih => exact ih.step next calm

/-- In every run the units in use are those of the admitted requests that are neither answered nor
withdrawn, and no request has two results. If nothing is left behind, no unit is in use when
`Close` has returned, and every request that was put on the input channel has its result, so that
the calls that still wait can take it. -/
theorem submit_answered {cfg : Config} {ids : List Nat} {w : World (machine cfg)}
    (run : Run cfg (fun _ _ => True) ids w) :
    0 ≤ w.used ∧ w.used ≤ cfg.capacity ∧ w.used = w.outstanding.length ∧
      (w.outstanding ++ w.settled ++ w.withdrawn).Perm ids ∧ ids.Nodup ∧
      (∀ id, (w.results.map Prod.fst).count id ≤ 1) ∧
      (Run cfg Calm ids w → w.returned = true → w.used = 0 ∧
        (∀ id ∈ w.placed, (w.results.map Prod.fst).count id = 1) ∧
        ∀ id ∈ w.waiting, ∃ result, (id, result) ∈ w.results) := by
  have acc := run.accounts
  have distinct : (w.results.map Prod.fst).Nodup := by
    have all := acc.admitted.nodup_iff.mpr acc.distinct
    refine acc.answered.nodup_iff.mpr (all.sublist ?_)
    exact ((List.sublist_append_right _ w.settling).append_right w.settled).trans
      (List.sublist_append_left _ _)
  refine ⟨by rw [acc.used]; omega, acc.bound, acc.used, acc.admitted, acc.distinct,
    List.nodup_iff_count_le_one.mp distinct, fun calm returned => ?_⟩
  obtain ⟨stops, held, settling⟩ := calm.drained.returned returned
  obtain ⟨-, entering, withdrawing, input, -⟩ := calm.drained.stopped stops
  have placed := acc.placed
  rw [input, held] at placed
  refine ⟨?_, fun id mem => ?_, fun id mem => ?_⟩
  · simp [acc.used, World.outstanding, entering, withdrawing, input, held, settling]
  · exact List.count_eq_one_of_mem distinct (placed.symm.subset mem)
  · obtain ⟨⟨_, result⟩, listed, rfl⟩ :=
      List.mem_map.mp (placed.symm.subset (acc.waiting mem))
    exact ⟨result, listed⟩

theorem Run.any {cfg : Config} {M : Machine} {allowed : World M → Event → Prop} {ids : List Nat}
    {w : World M} (run : Run cfg allowed ids w) : Run cfg (fun _ _ => True) ids w := by
  induction run with
  | start => exact .start
  | step before next allows new ih => exact .step ih next trivial new

/-- An order is submitted, executed and answered before the scheduler is closed. -/
theorem answered_before_close : ∃ (cfg : Config) (w : World (machine cfg)),
    w.returned = true ∧ w.placed = [0] ∧ w.used = 0 ∧ (w.results.map Prod.fst).count 0 = 1 := by
  let cfg : Config := newScheduler .none 1 1 1 0 false
  let order : Request := { id := 0, op := ⟨1, .orderWrite, 7, 0⟩, queuedAt := 0 }
  have started : Run cfg Calm [] ({ machine := ({} : Batcher) } : World (machine cfg)) := .start
  have admitted := started.step (.accept order rfl) rfl (by simp)
  have entered := admitted.step (.enter (show _ = [] ++ order :: [] from rfl) (by decide))
    trivial nofun
  have received := entered.step
    (.receive rfl (show BatchStep cfg 1 {} (.receive order) _ from .first order rfl)) trivial nofun
  have sent := received.step (.internal (show BatchStep cfg 1 _ .internal _ from
    .send rfl (by decide))) trivial nofun
  have working := sent.step (.internal (show BatchStep cfg 1 _ .internal _ from
    .work rfl (by decide))) trivial nofun
  have executed := working.step (.internal (show BatchStep cfg 1 _ .internal _ from
    .execute none 0 0 (show _ = [] ++ _ :: [] from rfl))) trivial nofun
  have answered := executed.step (.answer (show BatchStep cfg 1 _ (.answer order _) _ from
    .answer (show _ = [] ++ _ :: [] from rfl))) trivial nofun
  have done := answered.step (.internal (show BatchStep cfg 1 _ .internal _ from
    .answered (show _ = [] ++ _ :: [] from rfl))) trivial nofun
  have settled := done.step (.settle (show _ = [] ++ 0 :: [] from rfl)) trivial nofun
  have closed := settled.step .close trivial nofun
  have stopped := closed.step (.stop rfl (show BatchStep cfg 0 _ .stop _ from
    .stop nofun nofun)) ⟨rfl, rfl, rfl, rfl⟩ nofun
  have returned := stopped.step (.return rfl ⟨rfl, rfl, rfl⟩ rfl) trivial nofun
  obtain ⟨free, once, -⟩ := (submit_answered returned.any).2.2.2.2.2.2 returned rfl
  exact ⟨cfg, _, rfl, rfl, free, once 0 (List.mem_singleton_self 0)⟩

/-- A dispatcher that holds nothing and has stopped never answers a request again. -/
theorem World.Step.silent {cfg : Config} {M : Machine} {w v : World M} {e : Event}
    (next : World.Step cfg w e v) (stopped : M.stopped w.machine) (held : M.held w.machine = []) :
    M.stopped v.machine ∧ M.held v.machine = [] ∧ v.results = w.results := by
  cases next with
  | receive queued next => exact absurd (M.stopped_step stopped next).2.2 (List.cons_ne_nil _ _)
  | answer next => exact absurd (Drained.silent stopped held next).2 (List.cons_ne_nil _ _)
  | internal next | stop closed next =>
    exact ⟨(M.stopped_step stopped next).1, (Drained.silent stopped held next).1, rfl⟩
  | refuse | accept | enter | withdraw | giveBack | settle | take | leave | close | «return» =>
    exact ⟨stopped, held, rfl⟩

/-- An order is on the input channel when the dispatcher looks at the closed channel. It keeps its
unit and never gets a result, whatever happens. -/
theorem stranded_by_close : ∃ (cfg : Config) (w : World (machine cfg)),
    Run cfg (fun _ _ => True) [0] w ∧ w.returned = true ∧ w.used = 1 ∧ w.placed = [0] ∧
      w.waiting = [0] ∧
      ∀ v, Relation.ReflTransGen (fun w v => ∃ e, World.Step cfg w e v) w v → v.results = [] := by
  let cfg : Config := newScheduler .none 1 1 1 0 false
  let order : Request := { id := 0, op := ⟨1, .orderWrite, 7, 0⟩, queuedAt := 0 }
  have started : Run cfg (fun _ _ => True) []
      ({ machine := ({} : Batcher) } : World (machine cfg)) :=
    .start
  have admitted := started.step (.accept order rfl) trivial (by simp)
  have entered := admitted.step (.enter (show _ = [] ++ order :: [] from rfl) (by decide))
    trivial nofun
  have closed := entered.step .close trivial nofun
  have stopped := closed.step (.stop rfl (show BatchStep cfg 1 {} .stop _ from
    .stop nofun nofun)) trivial nofun
  have returned := stopped.step (.return rfl ⟨rfl, rfl, rfl⟩ rfl) trivial nofun
  refine ⟨cfg, _, returned, rfl, rfl, rfl, rfl, fun v later => ?_⟩
  have silent : (machine cfg).stopped v.machine ∧ (machine cfg).held v.machine = [] ∧
      v.results = [] := by
    induction later with
    | refl => exact ⟨⟨_, rfl⟩, rfl, rfl⟩
    | tail _ next ih =>
      obtain ⟨e, next⟩ := next
      obtain ⟨stops, held, same⟩ := next.silent ih.1 ih.2.1
      exact ⟨stops, held, same.trans ih.2.2⟩
  exact silent.2.2

end OctetDB.Scheduled
