import OctetDB.Catalog.Host
import OctetDB.Keyed.Acknowledge
import OctetDB.Keyed.Recovery

/-!
# No acknowledgement without durability

As long as a handle is not poisoned, every decision it retains is that of a frame which a
successful Sync has covered, if that holds of the decisions it recovered when it was opened.
A poisoned handle refuses everything and writes nothing, Close included.
-/

namespace OctetDB

/-! ## A poisoned handle -/

theorem admitKeyed_poisoned {db : KeyedDB} (dead : db.poisoned = true) (op : String) :
    ∃ err, db.admitKeyed op = .error err := by
  rw [KeyedDB.admitKeyed, if_pos dead]
  split <;> exact ⟨_, rfl⟩

/-- What a poisoned handle still does: it refuses, and its files stay as they are. -/
structure Host.Dead (host : Host) (answers : List Answer) (next : Host) : Prop where
  poisoned : next.db.keyed.poisoned = true
  dir : next.dir = host.dir
  replies : ∀ reply, .reply reply ∈ answers → ∃ err, reply = .error err
  results : ∀ result, .result result ∈ answers → result.err ≠ none

variable {host : Host} {answers : List Answer}

theorem Host.Step.dead {next : Host} (dead : host.db.keyed.poisoned = true)
    (step : host.Step answers next) :
    host.Dead answers next := by
  cases step with
  | refuse | wait | abandon | refuseMutation | submit | enqueue | late | close =>
    exact ⟨dead, rfl, by simp, by simp⟩
  | @perform before after call env pending =>
    obtain ⟨err, refused⟩ := admitKeyed_poisoned dead call.op
    have same : host.perform call env = (host, .error err) := by simp [Host.perform, refused]
    rw [same]
    exact ⟨dead, rfl, by simp, by simp⟩
  | @group size faults pos le =>
    have nothing := processCommitGroup_poisoned faults dead (host.dir.wal.getD [])
      (host.requests size)
    rw [← Host.group] at nothing
    refine ⟨?_, ?_, by simp, ?_⟩
    · simpa only [Host.commit, nothing] using dead
    · have same : host.dir.wal.map (fun _ => host.dir.wal.getD []) = host.dir.wal := by
        cases host.dir.wal <;> rfl
      simp only [Host.commit, nothing, same]
    · intro result mem
      rw [nothing] at mem
      obtain ⟨answer, listed, eq⟩ := List.mem_map.mp mem
      obtain ⟨-, -, rfl⟩ := List.mem_map.mp listed
      cases eq
      simp
  | finish env closed drained first =>
    have same : host.finish env = ({ host with finished := true }, none) := by
      rw [Host.finish, if_pos dead]
    rw [same]
    exact ⟨dead, rfl, by simp, by simp⟩

/-- Whatever happens on a poisoned handle, every call is refused and no file changes. -/
theorem Host.Run.dead {last : Host} (dead : host.db.keyed.poisoned = true)
    (run : host.Run answers last) :
    host.Dead answers last := by
  induction run with
  | refl host => exact ⟨dead, rfl, by simp, by simp⟩
  | step step rest ih =>
    have here := step.dead dead
    have later := ih here.poisoned
    refine ⟨later.poisoned, later.dir.trans here.dir, ?_, ?_⟩
    · intro reply mem
      exact (List.mem_append.mp mem).elim (here.replies reply) (later.replies reply)
    · intro result mem
      exact (List.mem_append.mp mem).elim (here.results result) (later.results result)

/-! ## Retained decisions are durable -/

/-- Every retained decision is that of a frame which a Sync has covered. -/
def Host.Covered (host : Host) : Prop :=
  ∀ (id : Bytes) (r : KeyedWALRecord), host.db.keyed.dedupe[id]? = some r →
    ∃ q ∈ host.synced, r.decision = q.decision

theorem Host.Step.covered {next : Host} (sound : host.db.keyed.poisoned = false → host.Covered)
    (step : host.Step answers next) (live : next.db.keyed.poisoned = false) : next.Covered := by
  have before : host.db.keyed.poisoned = false := by
    by_contra dead
    rw [(step.dead (by simpa using dead)).poisoned] at live
    cases live
  have covered := sound before
  cases step with
  | @perform before after call env pending =>
    intro id r get
    cases check : host.db.keyed.admitKeyed call.op with
    | error err =>
      simp only [Host.perform, check] at get ⊢
      exact covered id r get
    | ok =>
      simp only [Host.perform, check] at get live ⊢
      obtain same | dead := host.db.perform_keyed host.dir env call
      · rw [same] at get
        exact covered id r get
      · rw [dead] at live
        cases live
  | @group size faults pos le =>
    intro id r get
    obtain old | ⟨q, mem, eq⟩ := processCommitGroup_window before faults _ _ live get
    · obtain ⟨q, mem, eq⟩ := covered id r old
      exact ⟨q, List.mem_append_left _ mem, eq⟩
    · exact ⟨q, List.mem_append_right _ mem, eq⟩
  | finish env closed drained first =>
    have same : (host.finish env).1.db = host.db ∧ (host.finish env).1.synced = host.synced := by
      rw [Host.finish, if_neg (by simp [before])]
      exact ⟨rfl, rfl⟩
    intro id r get
    rw [same.1] at get
    rw [same.2]
    exact covered id r get
  | _ => exact covered

theorem Host.Run.covered {last : Host} (sound : host.db.keyed.poisoned = false → host.Covered)
    (run : host.Run answers last) :
    last.db.keyed.poisoned = false → last.Covered := by
  induction run with
  | refl host => exact sound
  | step step rest ih => exact ih fun live => step.covered sound live

/-- In every state of a handle that is not poisoned, whatever group comes next and wherever its
storage fails: an acknowledged decision is that of a frame which a Sync has covered. If the
group fails, an acknowledged decision was retained before and covered by an earlier Sync, every
request that depends on a frame of the group gets an error, and nothing is written behind the
failure. From then on every call is refused and the files stay as they are. -/
theorem acknowledged_durable {start host : Host} {answers : List Answer}
    (covered : start.Covered) (run : start.Run answers host) :
    (host.db.keyed.poisoned = false → ∀ size faults,
      (∀ (i : Nat) (result : KeyedCommitResult),
        (host.group size faults).results[i]? = some result →
        result.Acknowledged → ∃ q ∈ (host.commit size faults).synced, result.Tells q) ∧
      ((host.group size faults).db.poisoned = true →
        (∀ (i : Nat) (result : KeyedCommitResult) (request : KeyedCommitRequest),
          (host.group size faults).results[i]? = some result →
          (host.requests size)[i]? = some request → result.Acknowledged →
          ∃ r, host.db.keyed.dedupe[request.commandID]? = some r ∧
            result.decision = r.decision.asDuplicate ∧ ∃ q ∈ host.synced, r.decision = q.decision) ∧
        (∀ before request after, host.requests size = before ++ request :: after →
          (host.turn size faults before).Depends faults request →
          ∃ result, (host.group size faults).results[before.length]? = some result ∧
            result.err ≠ none) ∧
        (∀ before after, host.requests size = before ++ after →
          (host.turn size faults before).db.poisoned = true →
          (host.group size faults).wal = (host.turn size faults before).wal))) ∧
    (host.db.keyed.poisoned = true → ∀ later last, host.Run later last →
      last.dir = host.dir ∧ (∀ reply, .reply reply ∈ later → ∃ err, reply = .error err) ∧
        ∀ result, .result result ∈ later → result.err ≠ none) := by
  refine ⟨fun alive size faults => ⟨?_, fun failed => ⟨?_, ?_, ?_⟩⟩, ?_⟩
  · intro i result get ack
    have window := run.covered (fun _ => covered) alive
    have length : i < (host.requests size).length := by
      have loop := Answers.run alive faults (host.dir.wal.getD []) (host.requests size)
      obtain ⟨bound, -⟩ := List.getElem?_eq_some_iff.mp get
      exact lt_of_lt_of_le bound (loop.length_le faults.sync)
    obtain ⟨q, mem, told⟩ | ⟨r, retained, told⟩ := processCommitGroup_acknowledged alive faults _ _
      get (List.getElem?_eq_getElem length) ack
    · exact ⟨q, List.mem_append_right _ mem, told⟩
    · obtain ⟨q, mem, eq⟩ := window _ r retained
      exact ⟨q, List.mem_append_left _ mem, .inr (told.trans (congrArg _ eq))⟩
  · intro i result request get ask ack
    have window := run.covered (fun _ => covered) alive
    obtain ⟨q, mem, -⟩ | ⟨r, retained, told⟩ := processCommitGroup_acknowledged alive faults _ _
      get ask ack
    · rw [processCommitGroup_failed alive faults _ _ failed] at mem
      cases mem
    · exact ⟨r, retained, told, window _ r retained⟩
  · intro before request after split depends
    exact processCommitGroup_depends alive faults _ _ split depends failed
  · intro before after split dead
    exact processCommitGroup_wal faults _ _ split dead
  · intro dead later last rest
    have refused := rest.dead dead
    exact ⟨refused.dir, refused.replies, refused.results⟩

section Failures

def keyedHost (store : Store) (queue : List Submission) (synced : List KeyedWALRecord) : Host where
  db := { handle := 0, keyed := store.db, catalog := {} }
  dir := store.dir
  queue := queue
  synced := synced

def command (id : String) : Submission where
  commandID := ascii id
  mutation := .keyed (accepting id).mutation

def secondFails : Faults where
  append i := if i = 1 then some (.before "no space left on device") else none

def twoCommands : Host := keyedHost (.fresh smallBounds .keyed) [command "a", command "b"] []

/-- The first of two commands is staged when the second one's append fails: it gets an error,
and whatever happens later, the files stay as they are. -/
theorem acknowledged_durable_twoCommands :
    (∃ result, (twoCommands.group 2 secondFails).results[0]? = some result ∧ result.err ≠ none) ∧
    ∀ later last, (twoCommands.commit 2 secondFails).Run later last →
      last.dir = (twoCommands.commit 2 secondFails).dir := by
  have covered : twoCommands.Covered := by
    intro id r get
    simp [twoCommands, keyedHost, Store.fresh, KeyedDB.blank] at get
  have failed : (twoCommands.group 2 secondFails).db.poisoned = true := by decide +kernel
  have step : twoCommands.Step _ (twoCommands.commit 2 secondFails) :=
    .group secondFails (by decide) (by decide)
  constructor
  · have now := ((acknowledged_durable covered (.refl _)).1 rfl 2 secondFails).2 failed
    exact now.2.1 [] _ [_] rfl (.inl (by decide +kernel))
  · intro later last rest
    have dead : (twoCommands.commit 2 secondFails).db.keyed.poisoned = true := by decide +kernel
    exact ((acknowledged_durable covered (.step step (.refl _))).2 dead later last rest).1

/-- The frame of a command is written, but its Sync fails; then the handle is closed. -/
def unsynced : Host :=
  let host := (keyedHost (.fresh smallBounds .keyed) [command "a"] []).commit 1
    { sync := some "input/output error" }
  ({ host with db := { host.db with keyed := { host.db.keyed with closed := true } } }.finish {}).1

def retriedDecision : KeyedDecision where
  sequence := 1
  commandID := ascii "a"
  applied := true
  result := ascii "null"
  duplicate := true

set_option maxRecDepth 4000 in
/-- A command whose Sync failed gets an error. After the handle is reopened, a retry of it is
acknowledged in a group that fails, although no Sync has ever succeeded. -/
theorem unsynced_acknowledged :
    ((keyedHost (.fresh smallBounds .keyed) [command "a"] []).group 1
      { sync := some "input/output error" }).results.map (·.err) =
        [some (.product (storageError "submit_keyed" "input/output error"))] ∧
    unsynced.synced = [] ∧
    ∃ db d, openKeyed smallOptions .keyed unsynced.dir = .ok (db, d) ∧
      let host := keyedHost ⟨db, d⟩ [command "a", command "b"] unsynced.synced
      (host.group 2 secondFails).db.poisoned = true ∧ (host.commit 2 secondFails).synced = [] ∧
      (host.group 2 secondFails).results[0]? = some { decision := retriedDecision } := by
  refine ⟨by decide +kernel, by decide +kernel, ?_⟩
  have answers : ((openKeyed smallOptions .keyed unsynced.dir).toOption.map fun r =>
      let host := keyedHost ⟨r.1, r.2⟩ [command "a", command "b"] unsynced.synced
      ((host.group 2 secondFails).db.poisoned, (host.commit 2 secondFails).synced,
        (host.group 2 secondFails).results[0]?)) =
      some (true, [], some { decision := retriedDecision }) := by
    decide +kernel
  cases reopened : openKeyed smallOptions .keyed unsynced.dir with
  | error err => simp [reopened, Except.toOption] at answers
  | ok r =>
    simp only [reopened, Except.toOption, Option.map_some, Option.some_inj,
      Prod.mk.injEq] at answers
    exact ⟨r.1, r.2, rfl, answers⟩

end Failures

end OctetDB
