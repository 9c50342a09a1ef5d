import OctetDB.Keyed.Group
import OctetDB.Lib.Fold

/-!
# What a group acknowledges

A request of a group is acknowledged with the decision of a frame of the group, which then
depends on the shared Sync, or with a decision that was retained before the group. If an
append or the Sync fails, only the latter answers stand.
-/

namespace OctetDB

theorem executeKeyed_eq_duplicate {db : KeyedDB} {id : Bytes} {mutation : Option MutationFunc}
    {decision : KeyedDecision} (h : executeKeyed db id mutation = .duplicate decision) :
    ∃ r, db.dedupe[id]? = some r ∧ decision = r.decision.asDuplicate := by
  unfold executeKeyed Execution.refuse at h
  split at h
  · cases h
  split at h
  · cases h
  split at h
  · cases h
  split at h
  · rename_i r retained
    exact ⟨r, retained, (Execution.duplicate.inj h).symm⟩
  · simp only [decideKeyed, Execution.refuse] at h
    repeat' split at h
    all_goals cases h

/-- An entry of two lists that grow together is an old one or the new one. -/
theorem getElem?_concat_cases {α β : Type} {xs : List α} {ys : List β} {x a : α} {y b : β} {i : Nat}
    (same : xs.length = ys.length) (getX : (xs ++ [x])[i]? = some a)
    (getY : (ys ++ [y])[i]? = some b) :
    (i < xs.length ∧ xs[i]? = some a ∧ ys[i]? = some b) ∨ (i = xs.length ∧ a = x ∧ b = y) := by
  by_cases old : i < xs.length
  · rw [List.getElem?_append_left old] at getX
    rw [List.getElem?_append_left (same ▸ old)] at getY
    exact .inl ⟨old, getX, getY⟩
  · obtain rfl : i = xs.length := by
      obtain ⟨bound, -⟩ := List.getElem?_eq_some_iff.mp getX
      simp at bound
      omega
    rw [List.getElem?_concat_length] at getX
    rw [same, List.getElem?_concat_length] at getY
    exact .inr ⟨rfl, (Option.some.inj getX).symm, (Option.some.inj getY).symm⟩

/-- The caller gets a decision and no error. -/
def KeyedCommitResult.Acknowledged (result : KeyedCommitResult) : Prop :=
  result.err = none ∧ result.panicValue = none

/-- The answer is the decision of the record, of its first submission or of a retry. -/
def KeyedCommitResult.Tells (result : KeyedCommitResult) (r : KeyedWALRecord) : Prop :=
  result.decision = r.decision ∨ result.decision = r.decision.asDuplicate

/-- The answer repeats the decision that was retained for the request's command. -/
def KeyedCommitResult.Repeats (result : KeyedCommitResult) (db : KeyedDB)
    (request : KeyedCommitRequest) : Prop :=
  ∃ r, db.dedupe[request.commandID]? = some r ∧ result.decision = r.decision.asDuplicate

/-- The loop over a group of `size` requests that started on `db`, after the requests
`before`. -/
structure Answers (db : KeyedDB) (size : Nat) (before : List KeyedCommitRequest)
    (s : GroupState) : Prop where
  results_length : s.results.length = before.length
  durable_length : s.durable.length = before.length
  applied_le : s.applied.length ≤ before.length
  single : s.staged = none → size ≤ 1
  poison : s.db.poisoned = true ↔ s.storageErr ≠ none
  -- A retained decision is older than the group, or the staged index knows its position.
  window : ∀ (id : Bytes) (r : KeyedWALRecord), s.db.dedupe[id]? = some r →
    db.dedupe[id]? = some r ∨
      (∃ q ∈ s.applied, r.decision = q.decision) ∧
        (s.staged = none ∨ ∃ k, s.staged.bind (·[id]?) = some k)
  staged : ∀ (id : Bytes) (k : Nat), s.staged.bind (·[id]?) = some k →
    ∃ result, s.results[k]? = some result ∧ ∃ q ∈ s.applied, result.decision = q.decision
  acknowledged : ∀ (i : Nat) (result : KeyedCommitResult) (request : KeyedCommitRequest),
    s.results[i]? = some result → before[i]? = some request → result.Acknowledged →
    (s.durable[i]? = some true ∧ ∃ q ∈ s.applied, result.Tells q) ∨ result.Repeats db request

variable {request : KeyedCommitRequest}

namespace Answers

variable {db : KeyedDB} {size : Nat} {before : List KeyedCommitRequest} {s : GroupState}

theorem start (live : db.poisoned = false) (wal : Bytes) (size : Nat) :
    Answers db size [] (.start db wal size) where
  results_length := rfl
  durable_length := rfl
  applied_le := Nat.le_refl _
  single := by
    simp only [GroupState.start]
    split
    · simp
    · omega
  poison := by simp [GroupState.start, live]
  window id r h := .inl h
  staged id k h := by
    simp only [GroupState.start] at h
    split at h <;> simp at h
  acknowledged := by simp

theorem answer (h : Answers db size before s) (request : KeyedCommitRequest)
    {result : KeyedCommitResult} {durable : Bool}
    (sound : result.Acknowledged → (durable = true ∧ ∃ q ∈ s.applied, result.Tells q) ∨
      result.Repeats db request) :
    Answers db size (before ++ [request]) (s.answer result durable) where
  results_length := by simp [GroupState.answer, h.results_length]
  durable_length := by simp [GroupState.answer, h.durable_length]
  applied_le := by
    have := h.applied_le
    simp only [GroupState.answer, List.length_append, List.length_singleton]
    omega
  single := h.single
  poison := h.poison
  window := h.window
  staged id k eq := by
    obtain ⟨old, get, told⟩ := h.staged id k eq
    refine ⟨old, ?_, told⟩
    obtain ⟨bound, -⟩ := List.getElem?_eq_some_iff.mp get
    simpa [GroupState.answer, List.getElem?_append_left bound] using get
  acknowledged i answer asker get ask ack := by
    simp only [GroupState.answer] at get ⊢
    obtain ⟨old, get, ask⟩ | ⟨rfl, rfl, rfl⟩ := getElem?_concat_cases h.results_length get ask
    · rw [List.getElem?_append_left (by rw [h.durable_length, ← h.results_length]; exact old)]
      exact h.acknowledged i answer asker get ask ack
    · rw [h.results_length, ← h.durable_length, List.getElem?_concat_length]
      simpa using sound ack

theorem accept (h : Answers db size before s) (request : KeyedCommitRequest)
    (record : KeyedWALRecord) (wal : Bytes) :
    Answers db size (before ++ [request])
      ((s.accept wal record).answer { decision := record.decision } true) where
  results_length := by simp [GroupState.answer, GroupState.accept, h.results_length]
  durable_length := by simp [GroupState.answer, GroupState.accept, h.durable_length]
  applied_le := by
    have := h.applied_le
    simp only [GroupState.answer, GroupState.accept, List.length_append, List.length_singleton]
    omega
  single none := h.single (by simpa [GroupState.answer, GroupState.accept] using none)
  poison := by simpa [GroupState.answer, GroupState.accept] using h.poison
  window id r get := by
    simp only [GroupState.answer, GroupState.accept, applyKeyed] at get ⊢
    cases index : s.staged with
    | none =>
      obtain ⟨-, rfl⟩ | ⟨-, old⟩ := Window.getElem?_retain get
      · exact .inr ⟨⟨record, by simp, rfl⟩, by simp⟩
      · obtain old | ⟨⟨q, mem, eq⟩, -⟩ := h.window id r old
        · exact .inl old
        · exact .inr ⟨⟨q, by simp [mem], eq⟩, by simp⟩
    | some staged =>
      obtain ⟨rfl, rfl⟩ | ⟨other, old⟩ := Window.getElem?_retain get
      · exact .inr ⟨⟨record, by simp, rfl⟩, by simp⟩
      · obtain old | ⟨⟨q, mem, eq⟩, none | ⟨k, known⟩⟩ := h.window id r old
        · exact .inl old
        · rw [index] at none; cases none
        · refine .inr ⟨⟨q, by simp [mem], eq⟩, .inr ⟨k, ?_⟩⟩
          rw [index] at known
          simpa [Std.ExtTreeMap.getElem?_insert, Ne.symm other] using known
  staged id k eq := by
    simp only [GroupState.answer, GroupState.accept] at eq ⊢
    cases index : s.staged with
    | none => simp [index] at eq
    | some staged =>
      simp only [index, Option.map_some, Option.bind_some, Std.ExtTreeMap.getElem?_insert] at eq
      split at eq
      · cases eq
        exact ⟨_, List.getElem?_concat_length, record, by simp, rfl⟩
      · obtain ⟨result, get, q, mem, told⟩ := h.staged id k (by simpa [index] using eq)
        obtain ⟨bound, -⟩ := List.getElem?_eq_some_iff.mp get
        exact ⟨result, by rw [List.getElem?_append_left bound, get], q, by simp [mem], told⟩
  acknowledged i answer asker get ask ack := by
    simp only [GroupState.answer, GroupState.accept] at get ⊢
    obtain ⟨old, get, ask⟩ | ⟨rfl, rfl, rfl⟩ := getElem?_concat_cases h.results_length get ask
    · rw [List.getElem?_append_left (by rw [h.durable_length, ← h.results_length]; exact old)]
      obtain ⟨durable, q, mem, told⟩ | repeated := h.acknowledged i answer asker get ask ack
      · exact .inl ⟨durable, q, by simp [mem], told⟩
      · exact .inr repeated
    · rw [h.results_length, ← h.durable_length, List.getElem?_concat_length]
      exact .inl ⟨rfl, record, by simp, .inl rfl⟩

/-- A decision that the store retains for an ID the staged index does not answer is older
than the group. -/
theorem repeats_of_duplicate (h : Answers db size before s) (more : before.length < size)
    {decision : KeyedDecision} (unstaged : s.stagedDecision request.commandID = none)
    (run : executeKeyed s.db request.commandID request.mutation = .duplicate decision) :
    ({ decision := decision } : KeyedCommitResult).Repeats db request := by
  obtain ⟨r, retained, rfl⟩ := executeKeyed_eq_duplicate run
  obtain old | ⟨⟨q, mem, -⟩, none | ⟨k, known⟩⟩ := h.window _ r retained
  · exact ⟨r, old, rfl⟩
  · -- In a group of one no frame precedes the request.
    have := h.single none
    have := h.applied_le
    have := List.length_pos_of_mem mem
    omega
  · obtain ⟨result, get, -⟩ := h.staged _ k known
    have kept : request.commandID ∈ s.db.dedupe := by
      rw [Std.ExtTreeMap.mem_iff_isSome_getElem?, retained]; rfl
    simp [GroupState.stagedDecision, known, kept, get] at unstaged

theorem step (h : Answers db size before s) (faults : Faults) (more : before.length < size)
    (request : KeyedCommitRequest) :
    Answers db size (before ++ [request]) (groupStep faults s request) := by
  have effect := groupStep_spec faults s request
  generalize groupStep faults s request = t at effect ⊢
  cases effect with
  | poisoned | cancelled | refused => exact h.answer request fun ack => by cases ack.1
  | panicked live run => exact h.answer request fun ack => by cases ack.2
  | repeated live staged =>
    refine h.answer request fun _ => .inl ⟨rfl, ?_⟩
    simp only [GroupState.stagedDecision, Option.bind_eq_bind, Option.bind_eq_some_iff] at staged
    obtain ⟨k, known, found⟩ := staged
    split at found
    · obtain ⟨result, get, q, mem, told⟩ := h.staged _ k (Option.bind_eq_some_iff.mpr known)
      rw [get] at found
      cases found
      exact ⟨q, mem, .inr (congrArg KeyedDecision.asDuplicate told)⟩
    · cases found
  | duplicate live unstaged run =>
    exact h.answer request fun _ => .inr (h.repeats_of_duplicate more unstaged run)
  | @failed record wal err live run append =>
    have failed : Answers db size before (s.fail wal err) :=
      { h with poison := by simp [GroupState.fail, KeyedDB.poison] }
    exact failed.answer request fun ack => by cases ack.1
  | accepted live run append => exact h.accept request _ _

theorem run (live : db.poisoned = false) (faults : Faults) (wal : Bytes)
    (requests : List KeyedCommitRequest) :
    Answers db requests.length requests
      (requests.foldl (groupStep faults) (.start db wal requests.length)) := by
  refine foldl_induction (.start live wal _) fun before request after split h => ?_
  exact h.step faults (by simp [split]) request

end Answers

/-! ## Answers that depend on the frames of the group -/

/-- The request's frame is appended in the group, or the request is answered from a frame of
the group. -/
def GroupState.Depends (faults : Faults) (s : GroupState) (request : KeyedCommitRequest) : Prop :=
  (groupStep faults s request).applied ≠ s.applied ∨
    (s.db.poisoned = false ∧ request.cancelled = none ∧
      (s.stagedDecision request.commandID).isSome = true)

theorem GroupState.Depends.durable {faults : Faults} {s : GroupState}
    (h : s.Depends faults request) :
    (groupStep faults s request).durable = s.durable ++ [true] := by
  rcases h with appended | ⟨live, waiting, known⟩
  · have effect := groupStep_spec faults s request
    generalize groupStep faults s request = t at effect appended ⊢
    cases effect with
    | repeated => rfl
    | accepted => rfl
    | _ => exact absurd rfl appended
  · obtain ⟨decision, staged⟩ := Option.isSome_iff_exists.mp known
    simp only [groupStep, live, waiting, staged]
    rfl

theorem groupStep_durable (faults : Faults) (s : GroupState) (request : KeyedCommitRequest) :
    ∃ flag, (groupStep faults s request).durable = s.durable ++ [flag] := by
  have effect := groupStep_spec faults s request
  generalize groupStep faults s request = t at effect ⊢
  cases effect <;> exact ⟨_, rfl⟩

theorem foldl_groupStep_durable (faults : Faults) (s : GroupState)
    (requests : List KeyedCommitRequest) :
    ∃ flags, (requests.foldl (groupStep faults) s).durable = s.durable ++ flags := by
  induction requests generalizing s with
  | nil => exact ⟨[], by simp⟩
  | cons request requests ih =>
    obtain ⟨flag, here⟩ := groupStep_durable faults s request
    obtain ⟨flags, later⟩ := ih (groupStep faults s request)
    exact ⟨flag :: flags, by rw [List.foldl_cons, later, here, List.append_assoc]; rfl⟩

/-! ## The answers of a whole group -/

/-- The answer of a request whose group failed. -/
def withdraw (err : Error) (result : KeyedCommitResult) (durable : Bool) : KeyedCommitResult :=
  if durable then { err := some (.product err) } else result

/-- A group ends with an error that withdraws the answers depending on its frames, or with all
its frames synchronized. -/
theorem GroupState.finish_cases (s : GroupState) (sync : Option String) :
    (∃ err, s.finish sync =
      { db := s.db.poison, wal := s.wal, results := List.zipWith (withdraw err) s.results s.durable,
        applied := s.applied, synced := [] }) ∨
    (s.storageErr = none ∧ s.finish sync =
      { db := s.db, wal := s.wal, results := s.results, applied := s.applied,
        synced := s.applied }) := by
  simp only [GroupState.finish]
  split
  · rename_i err failed
    exact .inl ⟨err, rfl⟩
  · rename_i sound
    refine .inr ⟨?_, rfl⟩
    split at sound
    · rename_i open_
      exact open_.2
    · exact sound

/-- There is at most one answer for each request. -/
theorem Answers.length_le {db : KeyedDB} {size : Nat} {before : List KeyedCommitRequest}
    {s : GroupState} (h : Answers db size before s) (sync : Option String) :
    (s.finish sync).results.length ≤ before.length := by
  obtain ⟨err, eq⟩ | ⟨-, eq⟩ := s.finish_cases sync
  · rw [eq, List.length_zipWith, ← h.results_length]
    exact min_le_left _ _
  · rw [eq, h.results_length]

section Group

variable {db : KeyedDB} (live : db.poisoned = false) (faults : Faults) (wal : Bytes)
  (requests : List KeyedCommitRequest)

include live

/-- An acknowledged decision is that of a frame the group's Sync covered, or it was retained
before the group. -/
theorem processCommitGroup_acknowledged {i : Nat} {result : KeyedCommitResult}
    (get : (processCommitGroup faults db wal requests).results[i]? = some result)
    (ask : requests[i]? = some request) (ack : result.Acknowledged) :
    (∃ q ∈ (processCommitGroup faults db wal requests).synced, result.Tells q) ∨
      result.Repeats db request := by
  have loop := Answers.run live faults wal requests
  simp only [processCommitGroup] at get ⊢
  generalize requests.foldl (groupStep faults) _ = s at *
  obtain ⟨err, failed⟩ | ⟨-, done⟩ := s.finish_cases faults.sync
  · rw [failed] at get ⊢
    obtain ⟨old, durable, answer, flag, rfl⟩ := List.getElem?_zipWith_eq_some.mp get
    cases durable with
    | true => cases ack.1
    | false =>
      obtain ⟨durable, -⟩ | repeated := loop.acknowledged i old request answer ask ack
      · rw [flag] at durable; cases durable
      · exact .inr repeated
  · rw [done] at get ⊢
    obtain ⟨-, told⟩ | repeated := loop.acknowledged i result request get ask ack
    · exact .inl told
    · exact .inr repeated

/-- A group that poisons the handle synchronizes nothing. -/
theorem processCommitGroup_failed
    (failed : (processCommitGroup faults db wal requests).db.poisoned = true) :
    (processCommitGroup faults db wal requests).synced = [] := by
  have loop := Answers.run live faults wal requests
  simp only [processCommitGroup] at failed ⊢
  generalize requests.foldl (groupStep faults) _ = s at *
  obtain ⟨err, eq⟩ | ⟨none, eq⟩ := s.finish_cases faults.sync
  · rw [eq]
  · rw [eq] at failed
    exact absurd none (loop.poison.mp failed)

/-- After a group that does not, every retained decision was retained before or is that of a
synchronized frame. -/
theorem processCommitGroup_window
    (sound : (processCommitGroup faults db wal requests).db.poisoned = false) {id : Bytes}
    {r : KeyedWALRecord}
    (get : (processCommitGroup faults db wal requests).db.dedupe[id]? = some r) :
    db.dedupe[id]? = some r ∨
      ∃ q ∈ (processCommitGroup faults db wal requests).synced, r.decision = q.decision := by
  have loop := Answers.run live faults wal requests
  simp only [processCommitGroup] at sound get ⊢
  generalize requests.foldl (groupStep faults) _ = s at *
  obtain ⟨err, eq⟩ | ⟨-, eq⟩ := s.finish_cases faults.sync
  · rw [eq] at sound
    cases sound
  · rw [eq] at get ⊢
    exact (loop.window id r get).imp_right And.left

/-- In a group that poisons the handle, every request that depends on a frame of the group gets
an error. -/
theorem processCommitGroup_depends {before after : List KeyedCommitRequest}
    (split : requests = before ++ request :: after)
    (depends : (before.foldl (groupStep faults) (.start db wal requests.length)).Depends faults
      request) (failed : (processCommitGroup faults db wal requests).db.poisoned = true) :
    ∃ result, (processCommitGroup faults db wal requests).results[before.length]? = some result ∧
      result.err ≠ none := by
  have loop := Answers.run live faults wal requests
  have turn : Answers db requests.length before
      (before.foldl (groupStep faults) (.start db wal requests.length)) := by
    refine foldl_induction (.start live wal _) fun earlier asker later eq h => ?_
    exact h.step faults (by simp [split, eq]) asker
  obtain ⟨flags, grows⟩ := foldl_groupStep_durable faults
    (groupStep faults (before.foldl (groupStep faults) (.start db wal requests.length)) request)
    after
  rw [depends.durable, ← List.foldl_cons, ← List.foldl_append, ← split] at grows
  have flag : (requests.foldl (groupStep faults)
      (.start db wal requests.length)).durable[before.length]? = some true := by
    rw [grows, List.append_assoc, List.getElem?_append_right (by rw [turn.durable_length]),
      turn.durable_length]
    simp
  simp only [processCommitGroup] at failed ⊢
  generalize requests.foldl (groupStep faults) _ = s at *
  obtain ⟨err, eq⟩ | ⟨none, eq⟩ := s.finish_cases faults.sync
  · rw [eq]
    have bound : before.length < s.results.length := by
      rw [loop.results_length, split]; simp
    refine ⟨withdraw err s.results[before.length] true, ?_, by simp [withdraw]⟩
    exact List.getElem?_zipWith_eq_some.mpr
      ⟨_, true, List.getElem?_eq_getElem bound, flag, rfl⟩
  · rw [eq] at failed
    exact absurd none (loop.poison.mp failed)

end Group

/-! ## Poisoned handles -/

/-- Once the handle is poisoned, the rest of a group is refused and nothing is written. -/
theorem foldl_groupStep_poisoned (faults : Faults) {s : GroupState} (dead : s.db.poisoned = true)
    (requests : List KeyedCommitRequest) :
    requests.foldl (groupStep faults) s =
      { s with
        results := s.results ++
          requests.map fun _ => { err := some (poisonedError "submit_keyed") }
        durable := s.durable ++ requests.map fun _ => false } := by
  induction requests generalizing s with
  | nil => simp
  | cons request requests ih =>
    have step : groupStep faults s request =
        s.answer { err := some (poisonedError "submit_keyed") } false := by
      rw [groupStep, if_pos dead]
    rw [List.foldl_cons, step, @ih (s.answer _ false) dead]
    simp [GroupState.answer]

theorem GroupState.finish_wal (s : GroupState) (sync : Option String) :
    (s.finish sync).wal = s.wal := by
  obtain ⟨err, eq⟩ | ⟨-, eq⟩ := s.finish_cases sync <;> rw [eq]

/-- After a failed append the group writes nothing more. -/
theorem processCommitGroup_wal (faults : Faults) (db : KeyedDB) (wal : Bytes)
    {requests before after : List KeyedCommitRequest} (split : requests = before ++ after)
    (dead : (before.foldl (groupStep faults) (.start db wal requests.length)).db.poisoned = true) :
    (processCommitGroup faults db wal requests).wal =
      (before.foldl (groupStep faults) (.start db wal requests.length)).wal := by
  rw [processCommitGroup, GroupState.finish_wal]
  nth_rewrite 2 [split]
  rw [List.foldl_append, foldl_groupStep_poisoned faults dead]

/-- On a poisoned handle a group does nothing, and every request gets an error. -/
theorem processCommitGroup_poisoned (faults : Faults) {db : KeyedDB} (dead : db.poisoned = true)
    (wal : Bytes) (requests : List KeyedCommitRequest) :
    processCommitGroup faults db wal requests =
      { db := db, wal := wal, applied := [], synced := [],
        results := requests.map fun _ => { err := some (poisonedError "submit_keyed") } } := by
  rw [processCommitGroup, @foldl_groupStep_poisoned faults (.start db wal _) dead]
  simp [GroupState.finish, GroupState.start]

end OctetDB
