import OctetDB.Keyed.Serial
import OctetDB.Lib.Interleave

/-!
# The request protocol of the commit coordinator

Callers append their requests to a queue under a lock and post a token that wakes the
coordinator; the channel holds one token, and a post to a full channel is dropped. The
coordinator takes a token, cuts group after group from the queue, executes and answers them,
and waits for the next token once it finds the queue empty, or exits if the handle is closed
then. `Close` sets the flag without the lock and posts a token of its own.

The steps of a party follow the source statement by statement, so that they interleave
wherever the goroutines do. `groups`, `appended`, `executed` and `answered` record what has
happened so far.
-/

namespace OctetDB

open Function (update update_apply update_of_ne update_self)

/-- The largest group; `disabled` selects one request per Sync. -/
def commitLimit (disabled : Bool) : Nat := if disabled then 1 else keyedMaxCommitGroup

theorem commitLimit_pos (disabled : Bool) : 0 < commitLimit disabled := by
  cases disabled <;> decide

theorem commitLimit_le (disabled : Bool) : commitLimit disabled ≤ keyedMaxCommitGroup := by
  cases disabled <;> decide

/-- Where a call of `SubmitKeyed` stands. -/
inductive Caller where
  | start
  -- `closed` was false; the queue lock is next.
  | asking
  -- The lock is held, and `closed` is read a second time.
  | holding
  | admitted
  | refusing
  | appended
  -- The lock is released, and the wake token is not posted yet.
  | posting
  | waiting
  | answered
  | refused
  deriving DecidableEq, Repr

/-- The call holds the queue lock. -/
def Caller.holds : Caller → Bool
  | .holding | .admitted | .refusing | .appended => true
  | _ => false

/-- The call has appended its request. -/
def Caller.joined : Caller → Bool
  | .appended | .posting | .waiting | .answered => true
  | _ => false

/-- The call has appended its request and is still to post the wake token. -/
def Caller.owes : Caller → Bool
  | .appended | .posting => true
  | _ => false

/-- The stages of a call, by the steps that are left of its turn at the lock and the token. -/
def Caller.height : Caller → Nat
  | .holding => 3
  | .admitted => 2
  | .refusing | .appended => 1
  | _ => 0

/-- Where the coordinator stands. -/
inductive Coordinator where
  | waiting
  | looking
  | locked
  -- The queue was empty, and `closed` was read.
  | leaving (closed : Bool)
  | cut (group : List Nat)
  | executing (done rest : List Nat)
  | answering (rest : List Nat)
  | exited
  deriving DecidableEq, Repr

def Coordinator.holds : Coordinator → Bool
  | .locked | .leaving _ | .cut _ => true
  | _ => false

/-- The requests of the current group that are not answered yet. -/
def Coordinator.underway : Coordinator → List Nat
  | .cut group => group
  | .executing done rest => done ++ rest
  | .answering rest => rest
  | _ => []

/-- Those of them that are executed. -/
def Coordinator.done : Coordinator → List Nat
  | .executing done _ => done
  | .answering rest => rest
  | _ => []

theorem Coordinator.done_underway (c : Coordinator) : c.done <+: c.underway := by
  cases c <;> simp [Coordinator.done, Coordinator.underway]

/-- A group that was cut is not empty. -/
def Coordinator.Full : Coordinator → Prop
  | .cut group => group ≠ []
  | .executing done rest => done ++ rest ≠ []
  | _ => True

/-- How many steps the coordinator is from its next answer, at most. -/
def Coordinator.distance (disabled : Bool) : Coordinator → Nat
  | .leaving _ => commitLimit disabled + 6
  | .waiting | .answering [] => commitLimit disabled + 5
  | .looking => commitLimit disabled + 4
  | .locked => commitLimit disabled + 3
  | .cut group => group.length + 2
  | .executing _ rest => rest.length + 1
  | .answering (_ :: _) | .exited => 0

/-- Where a call of `Close` stands. -/
inductive Closer where
  | start
  | posting
  | awaiting
  | returned
  deriving DecidableEq, Repr

inductive Holder where
  | caller (i : Nat)
  | coordinator
  deriving DecidableEq, Repr

/-- Calls are numbered; a request is named by the call that makes it. -/
structure Protocol where
  closed : Bool := false
  mutex : Option Holder := none
  queue : List Nat := []
  wake : Bool := false
  caller : Nat → Caller := fun _ => .start
  coordinator : Coordinator := .waiting
  closer : Nat → Closer := fun _ => .start
  groups : List (List Nat) := []
  appended : List Nat := []
  executed : List Nat := []
  answered : List Nat := []

/-- The parties. `call` and `close` begin a call, and `giveUp` ends one whose context is nil or
that finds the handle poisoned. -/
inductive Party where
  | call (i : Nat)
  | caller (i : Nat)
  | giveUp (i : Nat)
  | coordinator
  | close (j : Nat)
  | closer (j : Nat)

/-- The parties that the scheduler runs; nobody has to begin a call or to give it up. -/
def Party.scheduled : Party → Bool
  | .caller _ | .coordinator | .closer _ => true
  | _ => false

namespace Protocol

def stepCaller (s : Protocol) (i : Nat) : Option Protocol :=
  match s.caller i with
  | .asking =>
    if s.mutex = none then
      some { s with
        caller := update s.caller i .holding
        mutex := some (.caller i) }
    else none
  | .holding =>
    some { s with
      caller := update s.caller i (if s.closed then .refusing else .admitted) }
  | .refusing => some { s with caller := update s.caller i .refused, mutex := none }
  | .admitted =>
    some { s with
      caller := update s.caller i .appended
      queue := s.queue ++ [i]
      appended := s.appended ++ [i] }
  | .appended => some { s with caller := update s.caller i .posting, mutex := none }
  -- A full channel drops the token: either way there is one.
  | .posting => some { s with caller := update s.caller i .waiting, wake := true }
  | .waiting =>
    if i ∈ s.answered then some { s with caller := update s.caller i .answered }
    else none
  | .start | .answered | .refused => none

def stepCoordinator (disabled : Bool) (s : Protocol) : Option Protocol :=
  match s.coordinator with
  | .waiting => if s.wake then some { s with wake := false, coordinator := .looking } else none
  | .looking =>
    if s.mutex = none then some { s with mutex := some .coordinator, coordinator := .locked }
    else none
  | .locked =>
    if s.queue = [] then some { s with coordinator := .leaving s.closed }
    else some { s with
      coordinator := .cut (s.queue.take (commitLimit disabled))
      queue := s.queue.drop (commitLimit disabled)
      groups := s.groups ++ [s.queue.take (commitLimit disabled)] }
  | .leaving closed =>
    some { s with mutex := none, coordinator := if closed then .exited else .waiting }
  | .cut group => some { s with mutex := none, coordinator := .executing [] group }
  | .executing done (i :: rest) =>
    some { s with executed := s.executed ++ [i], coordinator := .executing (done ++ [i]) rest }
  | .executing done [] => some { s with coordinator := .answering done }
  | .answering (i :: rest) =>
    some { s with answered := s.answered ++ [i], coordinator := .answering rest }
  | .answering [] => some { s with coordinator := .looking }
  | .exited => none

def stepCloser (s : Protocol) (j : Nat) : Option Protocol :=
  match s.closer j with
  | .posting => some { s with closer := update s.closer j .awaiting, wake := true }
  | .awaiting =>
    if s.coordinator = .exited then
      some { s with closer := update s.closer j .returned }
    else none
  | .start | .returned => none

def step (disabled : Bool) (s : Protocol) : Party → Option Protocol
  | .call i =>
    if s.caller i = .start then
      some { s with caller := update s.caller i (if s.closed then .refused else .asking) }
    else none
  | .caller i => s.stepCaller i
  | .giveUp i =>
    if s.caller i = .asking then some { s with caller := update s.caller i .refused }
    else none
  | .coordinator => s.stepCoordinator disabled
  | .close j =>
    if s.closer j = .start then
      -- The flag changes by a compare-and-swap, so that the first call alone goes on.
      if s.closed then some { s with closer := update s.closer j .returned }
      else some { s with closer := update s.closer j .posting, closed := true }
    else none
  | .closer j => s.stepCloser j

/-! ## What a step can do -/

/-- The steps of the parties, each with what it finds and what it leaves. -/
inductive Move (disabled : Bool) (s : Protocol) : Party → Protocol → Prop where
  | start {i : Nat} (here : s.caller i = .start) :
      Move disabled s (.call i) { s with
        caller := update s.caller i (if s.closed then .refused else .asking) }
  | giveUp {i : Nat} (here : s.caller i = .asking) :
      Move disabled s (.giveUp i) { s with caller := update s.caller i .refused }
  | lock {i : Nat} (here : s.caller i = .asking) (free : s.mutex = none) :
      Move disabled s (.caller i) { s with
        caller := update s.caller i .holding
        mutex := some (.caller i) }
  | read {i : Nat} (here : s.caller i = .holding) :
      Move disabled s (.caller i) { s with
        caller := update s.caller i (if s.closed then .refusing else .admitted) }
  | refuse {i : Nat} (here : s.caller i = .refusing) :
      Move disabled s (.caller i)
        { s with caller := update s.caller i .refused, mutex := none }
  | append {i : Nat} (here : s.caller i = .admitted) :
      Move disabled s (.caller i) { s with
        caller := update s.caller i .appended
        queue := s.queue ++ [i]
        appended := s.appended ++ [i] }
  | unlock {i : Nat} (here : s.caller i = .appended) :
      Move disabled s (.caller i)
        { s with caller := update s.caller i .posting, mutex := none }
  | post {i : Nat} (here : s.caller i = .posting) :
      Move disabled s (.caller i)
        { s with caller := update s.caller i .waiting, wake := true }
  | receive {i : Nat} (here : s.caller i = .waiting) (answered : i ∈ s.answered) :
      Move disabled s (.caller i) { s with caller := update s.caller i .answered }
  | take (here : s.coordinator = .waiting) (token : s.wake = true) :
      Move disabled s .coordinator { s with wake := false, coordinator := .looking }
  | look (here : s.coordinator = .looking) (free : s.mutex = none) :
      Move disabled s .coordinator { s with mutex := some .coordinator, coordinator := .locked }
  | empty (here : s.coordinator = .locked) (none : s.queue = []) :
      Move disabled s .coordinator { s with coordinator := .leaving s.closed }
  | cut (here : s.coordinator = .locked) (some : s.queue ≠ []) :
      Move disabled s .coordinator { s with
        coordinator := .cut (s.queue.take (commitLimit disabled))
        queue := s.queue.drop (commitLimit disabled)
        groups := s.groups ++ [s.queue.take (commitLimit disabled)] }
  | leave {closed : Bool} (here : s.coordinator = .leaving closed) :
      Move disabled s .coordinator
        { s with mutex := none, coordinator := if closed then .exited else .waiting }
  | release {group : List Nat} (here : s.coordinator = .cut group) :
      Move disabled s .coordinator { s with mutex := none, coordinator := .executing [] group }
  | execute {done rest : List Nat} {i : Nat} (here : s.coordinator = .executing done (i :: rest)) :
      Move disabled s .coordinator
        { s with executed := s.executed ++ [i], coordinator := .executing (done ++ [i]) rest }
  | sync {done : List Nat} (here : s.coordinator = .executing done []) :
      Move disabled s .coordinator { s with coordinator := .answering done }
  | answer {rest : List Nat} {i : Nat} (here : s.coordinator = .answering (i :: rest)) :
      Move disabled s .coordinator
        { s with answered := s.answered ++ [i], coordinator := .answering rest }
  | again (here : s.coordinator = .answering []) :
      Move disabled s .coordinator { s with coordinator := .looking }
  | close {j : Nat} (here : s.closer j = .start) (first : s.closed = false) :
      Move disabled s (.close j)
        { s with closer := update s.closer j .posting, closed := true }
  | closed {j : Nat} (here : s.closer j = .start) (later : s.closed = true) :
      Move disabled s (.close j) { s with closer := update s.closer j .returned }
  | postClose {j : Nat} (here : s.closer j = .posting) :
      Move disabled s (.closer j)
        { s with closer := update s.closer j .awaiting, wake := true }
  | done {j : Nat} (here : s.closer j = .awaiting) (exited : s.coordinator = .exited) :
      Move disabled s (.closer j) { s with closer := update s.closer j .returned }

section Moves

variable {disabled : Bool} {s t : Protocol} {party : Party}

theorem move_of_step (h : s.step disabled party = some t) : Move disabled s party t := by
  cases party with
  | call i =>
    simp only [step] at h
    split at h
    · cases h; exact .start ‹_›
    · cases h
  | caller i =>
    simp only [step, stepCaller] at h
    split at h
    · split at h
      · cases h; exact .lock ‹_› ‹_›
      · cases h
    · cases h; exact .read ‹_›
    · cases h; exact .refuse ‹_›
    · cases h; exact .append ‹_›
    · cases h; exact .unlock ‹_›
    · cases h; exact .post ‹_›
    · split at h
      · cases h; exact .receive ‹_› ‹_›
      · cases h
    · cases h
    · cases h
    · cases h
  | giveUp i =>
    simp only [step] at h
    split at h
    · cases h; exact .giveUp ‹_›
    · cases h
  | coordinator =>
    simp only [step, stepCoordinator] at h
    split at h
    · split at h
      · cases h; exact .take ‹_› ‹_›
      · cases h
    · split at h
      · cases h; exact .look ‹_› ‹_›
      · cases h
    · split at h
      · cases h; exact .empty ‹_› ‹_›
      · cases h; exact .cut ‹_› ‹_›
    · cases h; exact .leave ‹_›
    · cases h; exact .release ‹_›
    · cases h; exact .execute ‹_›
    · cases h; exact .sync ‹_›
    · cases h; exact .answer ‹_›
    · cases h; exact .again ‹_›
    · cases h
  | close j =>
    simp only [step] at h
    split at h
    · split at h
      · cases h; exact .closed ‹_› ‹_›
      · cases h; exact .close ‹_› (by simpa using ‹¬ s.closed = true›)
    · cases h
  | closer j =>
    simp only [step, stepCloser] at h
    split at h
    · cases h; exact .postClose ‹_›
    · split at h
      · cases h; exact .done ‹_› ‹_›
      · cases h
    · cases h
    · cases h

end Moves

/-! ## Invariants -/

/-- The lock is held by the party that stands where it is held. -/
structure Locked (s : Protocol) : Prop where
  caller : ∀ i, s.mutex = some (.caller i) ↔ (s.caller i).holds = true
  coordinator : s.mutex = some .coordinator ↔ s.coordinator.holds = true

/-- The groups follow the order of the queue, and so do executions and answers. -/
structure Ordered (s : Protocol) : Prop where
  appended : s.appended = s.groups.flatten ++ s.queue
  taken : s.groups.flatten = s.answered ++ s.coordinator.underway
  executed : s.executed = s.answered ++ s.coordinator.done
  full : s.coordinator.Full
  size_le : ∀ group ∈ s.groups, group.length ≤ keyedMaxCommitGroup

/-- The calls that have appended a request are those that stand behind it. -/
structure Joined (s : Protocol) : Prop where
  nodup : s.appended.Nodup
  mem_iff : ∀ i, i ∈ s.appended ↔ (s.caller i).joined = true

/-- A token is posted or still to come when the coordinator waits beside a queue that is not
empty, and the coordinator leaves an empty queue only, and a closed one for good. -/
structure Awake (s : Protocol) : Prop where
  waiting : s.coordinator = .waiting → s.queue ≠ [] → s.wake = true ∨
    (∃ i, (s.caller i).owes = true) ∨ ∃ j, s.closer j = .posting
  leaving : ∀ closed, s.coordinator = .leaving closed → s.queue = [] ∧
    (closed = true → s.closed = true)
  exited : s.coordinator = .exited → s.queue = [] ∧ s.closed = true ∧
    ∀ i, s.caller i ≠ .admitted

section Invariants

variable {disabled : Bool} {s t : Protocol} {party : Party}

theorem Locked.move (h : Locked s) (move : Move disabled s party t) : Locked t := by
  obtain ⟨caller, coordinator⟩ := h
  cases move <;> refine ⟨fun k => ?_, ?_⟩ <;> simp only [update_apply] <;>
    grind [Caller.holds, Coordinator.holds]

theorem Locked.apart (h : Locked s) (held : s.coordinator.holds = true) (i : Nat) :
    (s.caller i).holds = false := by
  rw [← Bool.not_eq_true, ← h.caller, h.coordinator.mpr held]
  simp

theorem Ordered.move (h : Ordered s) (move : Move disabled s party t) : Ordered t := by
  obtain ⟨appended, taken, executed, full, size_le⟩ := h
  cases move with
  | cut here some =>
    simp only [here, Coordinator.underway, Coordinator.done, List.append_nil] at taken executed
    refine ⟨?_, ?_, ?_, ?_, ?_⟩
    · simp [appended]
    · simp [taken, Coordinator.underway]
    · simp [executed, Coordinator.done]
    · have positive := commitLimit_pos disabled
      simp only [Coordinator.Full, ne_eq, List.take_eq_nil_iff]
      exact fun h => h.elim (by omega) some
    · have least := commitLimit_le disabled
      intro group mem
      rcases List.mem_append.mp mem with mem | mem
      · exact size_le group mem
      · rw [List.mem_singleton.mp mem, List.length_take]
        omega
  | _ => constructor <;> grind [Coordinator.underway, Coordinator.done, Coordinator.Full]

theorem Joined.move (h : Joined s) (move : Move disabled s party t) : Joined t := by
  obtain ⟨nodup, mem_iff⟩ := h
  cases move <;> refine ⟨?_, fun k => ?_⟩ <;> simp only [update_apply] <;>
    grind [Caller.joined]

/-- While the coordinator leaves, it holds the lock, and nobody appends. -/
theorem Awake.move_leaving (h : Awake s) (locked : Locked s) (move : Move disabled s party t)
    (closed : Bool) (there : t.coordinator = .leaving closed) :
    t.queue = [] ∧ (closed = true → t.closed = true) := by
  cases move with
  | @append i here =>
    have unheld := locked.apart (by rw [show s.coordinator = _ from there]; rfl) i
    rw [here] at unheld
    cases unheld
  | empty here none =>
    cases there
    exact ⟨none, id⟩
  | close here first => exact ⟨(h.leaving closed there).1, fun _ => rfl⟩
  | @leave c here => cases c <;> cases there
  | take | look | cut | release | execute | sync | answer | again => cases there
  | _ => exact h.leaving closed there

/-- Once the coordinator has exited, no call that looks at the flag again is admitted. -/
theorem Awake.move_exited (h : Awake s) (locked : Locked s) (move : Move disabled s party t)
    (there : t.coordinator = .exited) :
    t.queue = [] ∧ t.closed = true ∧ ∀ i, t.caller i ≠ .admitted := by
  cases move with
  | @append i here => exact absurd here ((h.exited there).2.2 i)
  | @leave c here =>
    cases c with
    | false => cases there
    | true =>
      obtain ⟨empty, closed⟩ := h.leaving true here
      refine ⟨empty, closed rfl, fun i admitted => ?_⟩
      have unheld := locked.apart (by rw [here]; rfl) i
      rw [show s.caller i = _ from admitted] at unheld
      cases unheld
  | read here =>
    obtain ⟨empty, closed, admitted⟩ := h.exited there
    refine ⟨empty, closed, fun i => ?_⟩
    simp only [update_apply, closed, if_true]
    split
    · simp
    · exact admitted i
  | close here first =>
    obtain ⟨empty, -, admitted⟩ := h.exited there
    exact ⟨empty, rfl, admitted⟩
  | take | look | empty | cut | release | execute | sync | answer | again => cases there
  | closed | postClose | done => exact h.exited there
  | _ =>
    obtain ⟨empty, closed, admitted⟩ := h.exited there
    refine ⟨empty, closed, fun i => ?_⟩
    simp only [update_apply]
    split
    · simp
    · exact admitted i

/-- A call that appends owes a token, and a token stays until the coordinator takes it. -/
theorem Awake.move_waiting (h : Awake s) (move : Move disabled s party t)
    (there : t.coordinator = .waiting) (some : t.queue ≠ []) :
    t.wake = true ∨ (∃ i, (t.caller i).owes = true) ∨ ∃ j, t.closer j = .posting := by
  cases move with
  | @append i here => exact .inr (.inl ⟨i, by simp [Caller.owes]⟩)
  | post | postClose => exact .inl rfl
  | @leave c here => exact absurd (h.leaving c here).1 some
  | take | look | empty | cut | release | execute | sync | answer | again => cases there
  | @unlock i here => exact .inr (.inl ⟨i, by simp [Caller.owes]⟩)
  | @close j here first => exact .inr (.inr ⟨j, by simp⟩)
  | @closed j here later | @done j here exited =>
    refine (h.waiting there some).imp_right (Or.imp_right fun ⟨k, posting⟩ => ⟨k, ?_⟩)
    have other : k ≠ j := by
      rintro rfl
      rw [here] at posting
      cases posting
    simpa [update_apply, other] using posting
  | @start i here | @giveUp i here | @lock i here | @read i here | @refuse i here
  | @receive i here =>
    refine (h.waiting there some).imp_right (Or.imp_left fun ⟨k, owes⟩ => ⟨k, ?_⟩)
    have other : k ≠ i := by
      rintro rfl
      rw [here] at owes
      cases owes
    simpa [update_apply, other] using owes

theorem Awake.move (h : Awake s) (locked : Locked s) (move : Move disabled s party t) : Awake t :=
  ⟨h.move_waiting move, h.move_leaving locked move, h.move_exited locked move⟩

/-- The invariant of the protocol. -/
structure Valid (s : Protocol) : Prop extends Locked s, Ordered s, Joined s, Awake s

theorem Valid.initial : Valid {} where
  caller := by simp [Caller.holds]
  coordinator := by simp [Coordinator.holds]
  appended := rfl
  taken := rfl
  executed := rfl
  full := trivial
  size_le := by simp
  nodup := List.nodup_nil
  mem_iff := by simp [Caller.joined]
  waiting := by simp
  leaving := by simp
  exited := by simp

theorem Valid.move (h : Valid s) (move : Move disabled s party t) : Valid t :=
  { h.toLocked.move move, h.toOrdered.move move, h.toJoined.move move,
    h.toAwake.move h.toLocked move with }

/-- What the coordinator has exited stays as it is. -/
theorem Awake.stays_exited (h : Awake s) (gone : s.coordinator = .exited)
    (move : Move disabled s party t) :
    t.coordinator = .exited ∧ t.appended = s.appended := by
  cases move with
  | @append i here => exact absurd here ((h.exited gone).2.2 i)
  | take here | look here | empty here | cut here | leave here | release here | execute here
  | sync here | answer here | again here => rw [gone] at here; cases here
  | _ => exact ⟨gone, rfl⟩

end Invariants

/-! ## Progress -/

section Progress

variable {disabled : Bool} {s t : Protocol} {party : Party} {i : Nat}

structure Pending (i : Nat) (s : Protocol) : Prop extends Valid s where
  present : i ∈ s.appended
  unanswered : i ∉ s.answered

/-- How far the coordinator is from answering the request: the answers before it count for more
than a whole round of the coordinator. -/
def rank (disabled : Bool) (i : Nat) (s : Protocol) : Nat :=
  (s.appended.idxOf i - s.answered.length) * (commitLimit disabled + 7) +
    s.coordinator.distance disabled

/-- A request that is not answered is in the current group or in the queue. -/
theorem Pending.mem (h : Pending i s) : i ∈ s.coordinator.underway ∨ i ∈ s.queue := by
  have present := h.present
  rw [h.appended, h.taken] at present
  simp only [List.mem_append] at present
  have := h.unanswered
  tauto

/-- The steps of the others leave the coordinator and the request where they are. -/
theorem Pending.move_other (h : Pending i s) (move : Move disabled s party t)
    (other : party ≠ .coordinator) :
    Pending i t ∧ t.rank disabled i = s.rank disabled i ∧ t.coordinator = s.coordinator := by
  have valid := h.toValid.move move
  cases move with
  | @append k here =>
    refine ⟨⟨valid, by simp [h.present], h.unanswered⟩, ?_, rfl⟩
    simp only [rank]
    rw [List.idxOf_append_of_mem h.present]
  | take | look | empty | cut | leave | release | execute | sync | answer | again =>
    exact absurd rfl other
  | _ => exact ⟨⟨valid, h.present, h.unanswered⟩, rfl, rfl⟩

/-- A step of the coordinator answers the request or brings it nearer. -/
theorem Pending.move_coordinator (h : Pending i s) (move : Move disabled s .coordinator t) :
    i ∈ t.answered ∨ (Pending i t ∧ t.rank disabled i < s.rank disabled i) := by
  have valid := h.toValid.move move
  have mem := h.mem
  cases move with
  | empty here none => simp [here, none, Coordinator.underway] at mem
  | leave here => simp [here, (h.leaving _ here).1, Coordinator.underway] at mem
  | @answer rest j here =>
    by_cases same : i = j
    · exact .inl (by simp [same])
    refine .inr ⟨⟨valid, h.present, by simp [h.unanswered, same]⟩, ?_⟩
    -- The request is behind the one that is answered now.
    have behind : s.answered.length + 1 ≤ s.appended.idxOf i := by
      have order : s.appended = (s.answered ++ [j]) ++ (rest ++ s.queue) := by
        rw [h.appended, h.taken, here]
        simp [Coordinator.underway]
      rw [order, List.idxOf_append_of_notMem (by simp [h.unanswered, same])]
      simp
    obtain ⟨n, eq⟩ := Nat.exists_eq_add_of_le behind
    have near : (Coordinator.answering rest).distance disabled ≤ commitLimit disabled + 5 := by
      cases rest <;> simp [Coordinator.distance]
    have next : (Coordinator.answering (j :: rest)).distance disabled = 0 := rfl
    simp only [rank, here, List.length_append, List.length_singleton, eq, next]
    rw [Nat.add_sub_cancel_left, Nat.add_assoc, Nat.add_sub_cancel_left, Nat.add_mul]
    omega
  | @sync done here =>
    have full := h.full
    rw [here] at full
    cases done with
    | nil => exact absurd rfl full
    | cons j done =>
      refine .inr ⟨⟨valid, h.present, h.unanswered⟩, ?_⟩
      simp [rank, here, Coordinator.distance]
  | cut here | take here | look here | release here | execute here | again here =>
    refine .inr ⟨⟨valid, h.present, h.unanswered⟩, ?_⟩
    simp [rank, here, Coordinator.distance]

end Progress

/-! ## Fair runs -/

section Fair

variable {disabled : Bool} {run : Interleaving (step disabled) {}} {i k : Nat} {c : Coordinator}

/-- The request is pending at a given distance and the coordinator has not moved since. -/
def At (disabled : Bool) (i k : Nat) (c : Coordinator) (s : Protocol) : Prop :=
  Pending i s ∧ s.rank disabled i = k ∧ s.coordinator = c

def Nearer (disabled : Bool) (i k : Nat) (s : Protocol) : Prop :=
  i ∈ s.answered ∨ (Pending i s ∧ s.rank disabled i < k)

theorem At.move_other {s t : Protocol} {party : Party} (h : At disabled i k c s)
    (move : Move disabled s party t) (other : party ≠ .coordinator) : At disabled i k c t := by
  obtain ⟨pending, rfl, rfl⟩ := h
  obtain ⟨pending, rank, stage⟩ := pending.move_other move other
  exact ⟨pending, rank, stage⟩

theorem At.move_coordinator {s t : Protocol} (h : At disabled i k c s)
    (move : Move disabled s .coordinator t) : Nearer disabled i k t := by
  obtain ⟨pending, rfl, rfl⟩ := h
  exact pending.move_coordinator move

/-- A call that is past its first checks moves only by itself. -/
theorem Move.caller_eq {s t : Protocol} {party : Party} {j : Nat} (move : Move disabled s party t)
    (other : party ≠ .caller j) (begun : s.caller j ≠ .start) (past : s.caller j ≠ .asking) :
    t.caller j = s.caller j := by
  cases move with
  | @start k here => exact update_of_ne (by rintro rfl; exact begun here) _ _
  | @lock k | @read k | @refuse k | @append k | @unlock k | @post k | @receive k =>
    exact update_of_ne (by rintro rfl; exact other rfl) _ _
  | @giveUp k here => exact update_of_ne (by rintro rfl; exact past here) _ _
  | _ => rfl

/-- A call that can always move reaches the end of what it is busy with, unless the coordinator
moves before. -/
theorem leadsTo_of_busy {j : Nat} (fair : run.Fair (.caller j)) {busy : Caller → Bool}
    {G : Protocol → Prop} (start : busy .start = false) (asking : busy .asking = false)
    (able : ∀ s : Protocol, busy (s.caller j) = true → (s.step disabled (.caller j)).isSome = true)
    (hop : ∀ s t : Protocol, busy (s.caller j) = true → Move disabled s (.caller j) t →
      G t ∨ (busy (t.caller j) = true ∧ (t.caller j).height < (s.caller j).height)) :
    run.LeadsTo (fun s => At disabled i k c s ∧ busy (s.caller j) = true)
      fun s => (At disabled i k c s ∧ G s) ∨ Nearer disabled i k s := by
  refine Interleaving.leadsTo_of_rank (fun s => (s.caller j).height) fun n => ?_
  have own (s t : Protocol) (h : (At disabled i k c s ∧ busy (s.caller j) = true) ∧
      (s.caller j).height = n) (move : Move disabled s (.caller j) t) :
      ((At disabled i k c t ∧ G t) ∨ Nearer disabled i k t) ∨
        ((At disabled i k c t ∧ busy (t.caller j) = true) ∧ (t.caller j).height < n) := by
    obtain ⟨⟨here, busy⟩, rfl⟩ := h
    have there := here.move_other move (by simp)
    rcases hop s t busy move with reached | ⟨busy, lower⟩
    · exact .inl (.inl ⟨there, reached⟩)
    · exact .inr ⟨⟨there, busy⟩, lower⟩
  refine Interleaving.leadsTo_of_fair fair ?_ ?_ ?_
  · intro s party t h moved
    have move := move_of_step moved
    by_cases self : party = .caller j
    · subst self
      exact .inr (own s t h move)
    by_cases coordinator : party = .coordinator
    · subst coordinator
      exact .inr (.inl (.inr (h.1.1.move_coordinator move)))
    obtain ⟨⟨here, busy⟩, height⟩ := h
    have same : t.caller j = s.caller j := by
      refine move.caller_eq self ?_ ?_
      · intro at_
        rw [at_, start] at busy
        cases busy
      · intro at_
        rw [at_, asking] at busy
        cases busy
    exact .inl ⟨⟨here.move_other move coordinator, by rw [same, busy]⟩, by rw [same, height]⟩
  · exact fun s t h moved => own s t h (move_of_step moved)
  · exact fun m h => ⟨m, le_refl m, .inl (able _ h.1.2)⟩

/-- Who holds the lock lets go of it. -/
theorem leadsTo_unlocked {j : Nat} (fair : run.Fair (.caller j)) :
    run.LeadsTo (fun s => At disabled i k c s ∧ (s.caller j).holds = true)
      fun s => (At disabled i k c s ∧ s.mutex = none) ∨ Nearer disabled i k s := by
  refine leadsTo_of_busy fair rfl rfl (fun s busy => ?_) fun s t busy move => ?_
  · simp only [step, stepCaller]
    split <;> simp_all [Caller.holds]
  · cases move with
    | refuse | unlock => exact .inl rfl
    | read here | append here =>
      refine .inr ?_
      simp only [update_self, here]
      grind [Caller.holds, Caller.height]
    | lock here | post here | receive here => rw [here] at busy; cases busy

/-- Who owes a token posts it. -/
theorem leadsTo_token {j : Nat} (fair : run.Fair (.caller j)) :
    run.LeadsTo (fun s => At disabled i k c s ∧ (s.caller j).owes = true)
      fun s => (At disabled i k c s ∧ s.wake = true) ∨ Nearer disabled i k s := by
  refine leadsTo_of_busy fair rfl rfl (fun s busy => ?_) fun s t busy move => ?_
  · simp only [step, stepCaller]
    split <;> simp_all [Caller.owes]
  · cases move with
    | post => exact .inl rfl
    | unlock here =>
      refine .inr ?_
      simp only [update_self, here]
      decide
    | lock here | read here | refuse here | append here | receive here =>
      rw [here] at busy; cases busy

theorem leadsTo_close_token {j : Nat} (fair : run.Fair (.closer j)) :
    run.LeadsTo (fun s => At disabled i k c s ∧ s.closer j = .posting)
      fun s => (At disabled i k c s ∧ s.wake = true) ∨ Nearer disabled i k s := by
  have own (s t : Protocol) (h : At disabled i k c s ∧ s.closer j = .posting)
      (move : Move disabled s (.closer j) t) :
      (At disabled i k c t ∧ t.wake = true) ∨ Nearer disabled i k t := by
    have there := h.1.move_other move (by simp)
    cases move with
    | postClose => exact .inl ⟨there, rfl⟩
    | done here => rw [h.2] at here; cases here
  refine Interleaving.leadsTo_of_fair fair ?_ (fun s t h moved => own s t h (move_of_step moved)) ?_
  · intro s party t h moved
    have move := move_of_step moved
    by_cases self : party = .closer j
    · subst self
      exact .inr (own s t h move)
    by_cases coordinator : party = .coordinator
    · subst coordinator
      exact .inr (.inr (h.1.move_coordinator move))
    have same : t.closer j = s.closer j := by
      cases move with
      | @close k here | @closed k here =>
        refine update_of_ne ?_ _ _
        rintro rfl
        rw [h.2] at here
        cases here
      | @postClose k | @done k =>
        exact update_of_ne (by rintro rfl; exact self rfl) _ _
      | _ => rfl
    exact .inl ⟨h.1.move_other move coordinator, by rw [same, h.2]⟩
  · exact fun m h => ⟨m, le_refl m, .inl (by simp [step, stepCloser, h.2])⟩

/-- As long as a request is pending, the coordinator can move again and again. -/
theorem coordinator_ready (fair : ∀ party, party.scheduled = true → run.Fair party) :
    run.LeadsTo (fun s => Pending i s ∧ s.rank disabled i = k) fun s =>
      (s.step disabled .coordinator).isSome = true ∨ Nearer disabled i k s := by
  rintro n ⟨pending, eq⟩
  have here : At disabled i k (run.state n).coordinator (run.state n) := ⟨pending, eq, rfl⟩
  have mem := pending.mem
  cases stage : (run.state n).coordinator with
  | waiting =>
    rw [stage] at here mem
    have able (s : Protocol) (h : (At disabled i k .waiting s ∧ s.wake = true) ∨
        Nearer disabled i k s) :
        (s.step disabled .coordinator).isSome = true ∨ Nearer disabled i k s :=
      h.imp_left fun h => by simp [step, stepCoordinator, h.1.2.2, h.2]
    have posted : ∃ m, n ≤ m ∧ ((At disabled i k .waiting (run.state m) ∧
        (run.state m).wake = true) ∨ Nearer disabled i k (run.state m)) := by
      rcases pending.waiting stage (by rintro empty; simp [empty, Coordinator.underway] at mem) with
        token | ⟨j, owes⟩ | ⟨j, posting⟩
      · exact ⟨n, le_refl n, .inl ⟨here, token⟩⟩
      · exact leadsTo_token (fair _ rfl) n ⟨here, owes⟩
      · exact leadsTo_close_token (fair _ rfl) n ⟨here, posting⟩
    obtain ⟨m, le, posted⟩ := posted
    exact ⟨m, le, able _ posted⟩
  | looking =>
    rw [stage] at here
    have able (s : Protocol) (h : (At disabled i k .looking s ∧ s.mutex = none) ∨
        Nearer disabled i k s) :
        (s.step disabled .coordinator).isSome = true ∨ Nearer disabled i k s :=
      h.imp_left fun h => by simp [step, stepCoordinator, h.1.2.2, h.2]
    cases lock : (run.state n).mutex with
    | none => exact ⟨n, le_refl n, able _ (.inl ⟨here, lock⟩)⟩
    | some holder =>
      cases holder with
      | coordinator =>
        have held := pending.coordinator.mp lock
        rw [stage] at held
        cases held
      | caller j =>
        obtain ⟨m, le, free⟩ := leadsTo_unlocked (fair _ rfl) n ⟨here, (pending.caller j).mp lock⟩
        exact ⟨m, le, able _ free⟩
  | locked =>
    refine ⟨n, le_refl n, .inl ?_⟩
    simp only [step, stepCoordinator, stage]
    split <;> rfl
  | executing done rest | answering rest =>
    refine ⟨n, le_refl n, .inl ?_⟩
    cases rest <;> simp [step, stepCoordinator, stage]
  | leaving closed | cut group =>
    exact ⟨n, le_refl n, .inl (by simp [step, stepCoordinator, stage])⟩
  | exited => simp [stage, (pending.exited stage).1, Coordinator.underway] at mem

theorem leadsTo_answered (fair : ∀ party, party.scheduled = true → run.Fair party) :
    run.LeadsTo (Pending i) fun s => i ∈ s.answered := by
  refine Interleaving.leadsTo_of_rank (rank disabled i) fun k => ?_
  have own (s t : Protocol) (h : Pending i s ∧ s.rank disabled i = k)
      (move : Move disabled s .coordinator t) : Nearer disabled i k t :=
    At.move_coordinator ⟨h.1, h.2, rfl⟩ move
  refine Interleaving.leadsTo_of_fair (fair .coordinator rfl) ?_
    (fun s t h moved => own s t h (move_of_step moved)) (coordinator_ready fair)
  intro s party t h moved
  have move := move_of_step moved
  by_cases coordinator : party = .coordinator
  · subst coordinator
    exact .inr (own s t h move)
  · obtain ⟨pending, rank, -⟩ := h.1.move_other move coordinator
    exact .inl ⟨pending, rank.trans h.2⟩

end Fair

/-! ## Runs -/

section Runs

variable {disabled : Bool}

theorem valid_run (run : Interleaving (step disabled) {}) (n : Nat) : Valid (run.state n) := by
  have reach := run.reaches (Nat.zero_le n)
  rw [run.state_zero] at reach
  exact invariant_of_step Valid.initial (fun _ _ _ h moved => h.move (move_of_step moved)) reach

/-- What was appended before the coordinator exited is all there will ever be. -/
theorem exited_run (run : Interleaving (step disabled) {}) {n m : Nat} (le : n ≤ m)
    (gone : (run.state n).coordinator = .exited) :
    (run.state m).coordinator = .exited ∧ (run.state m).appended = (run.state n).appended := by
  have kept := invariant_of_step
    (P := fun s => Valid s ∧ s.coordinator = .exited ∧ s.appended = (run.state n).appended)
    ⟨valid_run run n, gone, rfl⟩ (fun s party t ⟨valid, gone, same⟩ moved => ?_) (run.reaches le)
  · exact kept.2
  · have move := move_of_step moved
    obtain ⟨gone, stays⟩ := valid.stays_exited gone move
    exact ⟨valid.move move, gone, stays.trans same⟩

theorem answered_run (run : Interleaving (step disabled) {}) {n m : Nat} (le : n ≤ m) {i : Nat}
    (mem : i ∈ (run.state n).answered) : i ∈ (run.state m).answered := by
  refine invariant_of_step (P := fun s => i ∈ s.answered) mem (fun s party t mem moved => ?_)
    (run.reaches le)
  cases move_of_step moved with
  | answer => exact List.mem_append_left _ mem
  | _ => exact mem

end Runs

end Protocol

/-- The request protocol of the coordinator, in every interleaving of calls of `SubmitKeyed`, of
`Close` and of the coordinator: requests are executed and answered in the order in which they
were appended and at most once, no token is lost while the coordinator waits, an exit leaves
nothing behind, and in a fair run every request that was appended has one answer for good. -/
theorem appended_answered_once (disabled : Bool) (run : Interleaving (Protocol.step disabled) {})
    (n : Nat) :
    ((run.state n).executed <+: (run.state n).appended ∧
      (run.state n).answered <+: (run.state n).executed ∧
      ∀ i, (run.state n).answered.count i ≤ 1) ∧
    ((run.state n).queue ≠ [] → (run.state n).coordinator = .waiting →
      (run.state n).wake = true ∨ (∃ i, ((run.state n).caller i).owes = true) ∨
        ∃ j, (run.state n).closer j = .posting) ∧
    ((run.state n).coordinator = .exited → ∀ m, n ≤ m →
      (run.state m).queue = [] ∧ (run.state m).appended = (run.state n).appended ∧
        (run.state m).answered = (run.state n).appended) ∧
    ((∀ party, party.scheduled = true → run.Fair party) → ∀ i ∈ (run.state n).appended,
      ∃ m, ∀ k, m ≤ k → (run.state k).answered.count i = 1) := by
  have order (n : Nat) : (run.state n).executed <+: (run.state n).appended ∧
      (run.state n).answered <+: (run.state n).executed := by
    have valid := Protocol.valid_run run n
    rw [valid.executed, valid.appended, valid.taken, List.append_assoc]
    refine ⟨(List.prefix_append_right_inj _).mpr ?_, List.prefix_append _ _⟩
    exact (Coordinator.done_underway _).trans (List.prefix_append _ _)
  have once (n i : Nat) : (run.state n).answered.count i ≤ 1 := by
    have nodup := (Protocol.valid_run run n).nodup
    obtain ⟨executed, answered⟩ := order n
    exact List.nodup_iff_count_le_one.mp
      (nodup.sublist (answered.trans executed).sublist) i
  refine ⟨⟨(order n).1, (order n).2, once n⟩, ?_, ?_, ?_⟩
  · exact fun some waiting => (Protocol.valid_run run n).waiting waiting some
  · intro gone m le
    obtain ⟨gone, same⟩ := Protocol.exited_run run le gone
    have valid := Protocol.valid_run run m
    have empty := (valid.exited gone).1
    have appended := valid.appended
    have taken := valid.taken
    simp only [gone, Coordinator.underway, List.append_nil] at taken
    rw [taken, empty, List.append_nil] at appended
    exact ⟨empty, same, appended.symm.trans same⟩
  · intro fair i mem
    obtain ⟨m, answered⟩ : ∃ m, i ∈ (run.state m).answered := by
      by_cases already : i ∈ (run.state n).answered
      · exact ⟨n, already⟩
      · obtain ⟨m, -, answered⟩ := Protocol.leadsTo_answered fair n
          ⟨Protocol.valid_run run n, mem, already⟩
        exact ⟨m, answered⟩
    refine ⟨m, fun k le => ?_⟩
    have some := List.count_pos_iff.mpr (Protocol.answered_run run le answered)
    have := once k i
    omega

/-- One call, from its first step to its answer, and the coordinator back at the channel. -/
def oneCall : List Party :=
  [.call 0, .caller 0, .caller 0, .caller 0, .caller 0, .caller 0, .coordinator, .coordinator,
    .coordinator, .coordinator, .coordinator, .coordinator, .coordinator, .coordinator,
    .coordinator, .coordinator, .coordinator, .caller 0]

/-- A fair run in which one request is appended and answered. -/
theorem one_call_answered :
    let run := Interleaving.play (Protocol.step false) {} oneCall
    0 ∈ (run.state 18).appended ∧ ∃ m, ∀ k, m ≤ k → (run.state k).answered.count 0 = 1 := by
  intro run
  have mem : 0 ∈ (run.state 18).appended := by decide +kernel
  refine ⟨mem, (appended_answered_once false run 18).2.2.2 (fun party scheduled => ?_) 0 mem⟩
  refine Interleaving.play_fair ?_
  cases party with
  | call i | giveUp i | close j => cases scheduled
  | coordinator => rfl
  | closer j => rfl
  | caller i =>
    cases i with
    | zero => rfl
    | succ i => rfl

end OctetDB
