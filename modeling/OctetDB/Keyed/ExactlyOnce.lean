import OctetDB.Keyed.Acknowledge
import OctetDB.Keyed.Reopen

/-!
# Exactly once within the horizon

The window always holds the last decisions of the run, through groups, snapshots and
reopenings. A command with one of their IDs is answered with that decision and its callback
is not run; any other command runs its callback once.

How often a callback runs cannot be seen from a pure function, so the step of a group is also
written over callbacks with effects in any monad. For callbacks without effects it is
`groupStep`.
-/

namespace OctetDB

/-! ## Callbacks with effects -/

section Effects

variable {m : Type → Type} [Monad m]

/-- A request whose callback may have effects beyond its transaction. -/
structure EffectRequest (m : Type → Type) where
  cancelled : Option String := none
  commandID : Bytes
  mutation : Option (KeyedTx → m MutationRun)

def executeEffect (db : KeyedDB) (id : Bytes) (mutation : Option (KeyedTx → m MutationRun)) :
    m Execution :=
  if Utf8.trimSpace id = [] then pure (.refuse .invalidInput "command ID is required")
  else if id.length > keyedMaxIdentityBytes then
    pure (.refuse .capacity "command ID exceeds 4 KiB")
  else
    match mutation with
    | none => pure (.refuse .invalidInput "mutation is required")
    | some mutation =>
      match db.dedupe[id]? with
      | some prior => pure (.duplicate prior.decision.asDuplicate)
      | none => do
        let run ← mutation { db := db }
        pure (decideKeyed db id run)

def groupStepEffect (faults : Faults) (s : GroupState) (request : EffectRequest m) :
    m GroupState :=
  if s.db.poisoned then pure (s.answer { err := some (poisonedError "submit_keyed") } false)
  else
    match request.cancelled with
    | some message => pure (s.answer { err := some (.context message) } false)
    | none =>
      match s.stagedDecision request.commandID with
      | some decision => pure (s.answer { decision := decision.asDuplicate } true)
      | none => do
        let execution ← executeEffect s.db request.commandID request.mutation
        match execution with
        | .refused err => pure (s.answer { err := some err } false)
        | .duplicate decision => pure (s.answer { decision := decision } false)
        | .panicked value => pure (s.answer { panicValue := some value } false)
        | .decided record => pure (s.stage record (faults.append s.results.length))

end Effects

/-- Without effects both steps are the same. -/
theorem groupStep_eq_effect (faults : Faults) (s : GroupState) (request : KeyedCommitRequest) :
    groupStep faults s request = Id.run (groupStepEffect (m := Id) faults s
      ⟨request.cancelled, request.commandID, request.mutation⟩) := by
  have execute : executeEffect (m := Id) s.db request.commandID request.mutation =
      executeKeyed s.db request.commandID request.mutation := by
    unfold executeEffect executeKeyed
    split
    · rfl
    split
    · rfl
    cases request.mutation with
    | none => rfl
    | some callback =>
      simp only
      cases s.db.dedupe[request.commandID]? <;> rfl
  unfold groupStep groupStepEffect
  split
  · rfl
  cases request.cancelled with
  | some message => rfl
  | none =>
    simp only
    cases s.stagedDecision request.commandID with
    | some decision => rfl
    | none =>
      simp only [execute]
      cases executeKeyed s.db request.commandID request.mutation <;> rfl

/-! ## The decisions of a run -/

/-- The runs of a store with the decisions they made and kept, in the order of the log. After a
crash inside a group, the decisions are kept whose frames recovery leaves in the log. -/
inductive Store.History (options : KeyedOptions) (format : KeyedFormat) :
    Store → List KeyedWALRecord → Prop where
  | opened {db : KeyedDB} {dir : Directory}
      (accepted : openKeyed options format {} = .ok (db, dir)) : History options format ⟨db, dir⟩ []
  | commit {st : Store} {past : List KeyedWALRecord} (run : History options format st past)
      {requests : List KeyedCommitRequest} (valid : st.ValidGroup requests) :
      History options format (st.commit requests)
        (past ++ (processCommitGroup {} st.db (st.dir.wal.getD []) requests).applied)
  | snapshot {st : Store} {past : List KeyedWALRecord} (run : History options format st past)
      (live : st.db.poisoned = false) :
      History options format ⟨st.db, (snapshotKeyed st.db st.dir none).1⟩ past
  | reopened {st : Store} {past : List KeyedWALRecord} (run : History options format st past)
      {n : Nat} {db : KeyedDB} {dir : Directory}
      (accepted : openKeyed options format (st.crash n) = .ok (db, dir)) :
      History options format ⟨db, dir⟩ past
  | torn {st : Store} {past : List KeyedWALRecord} (run : History options format st past)
      {requests : List KeyedCommitRequest} (valid : st.ValidGroup requests) {n : Nat}
      {db : KeyedDB} {dir : Directory}
      (accepted : openKeyed options format (st.tear requests n) = .ok (db, dir))
      {kept lost : List KeyedWALRecord}
      (split : (processCommitGroup {} st.db (st.dir.wal.getD []) requests).applied = kept ++ lost)
      (log : dir.wal = some (st.dir.wal.getD [] ++ logOf kept)) :
      History options format ⟨db, dir⟩ (past ++ kept)

theorem Store.History.reachable {options : KeyedOptions} {format : KeyedFormat} {st : Store}
    {past : List KeyedWALRecord} (history : st.History options format past) :
    st.Reachable options format Store.ValidGroup := by
  induction history with
  | opened accepted => exact ⟨_, accepted, .refl⟩
  | commit _ valid ih =>
    obtain ⟨start, opened, run⟩ := ih
    exact ⟨start, opened, run.tail (.commit _ _ valid)⟩
  | snapshot _ live ih =>
    obtain ⟨start, opened, run⟩ := ih
    exact ⟨start, opened, run.tail (.snapshot _ live)⟩
  | reopened _ accepted ih =>
    obtain ⟨start, opened, run⟩ := ih
    exact ⟨start, opened, run.tail (.reopen _ _ accepted)⟩
  | torn _ valid accepted _ _ ih =>
    obtain ⟨start, opened, run⟩ := ih
    exact ⟨start, opened, run.tail (.torn _ _ valid _ accepted)⟩

/-- Records that were decided from the blank state on lead to the state. -/
structure Made (options : KeyedBounds) (format : KeyedFormat) (past : List KeyedWALRecord)
    (db : KeyedDB) : Prop where
  state : db = { past.foldl applyKeyed (.blank options format) with poisoned := db.poisoned }
  extend : Extends (.blank options format) past
  proper : ∀ r ∈ past, Utf8.trimSpace r.commandID ≠ [] ∧
    r.commandID.length ≤ keyedMaxIdentityBytes

variable {options : KeyedBounds} {format : KeyedFormat} {past : List KeyedWALRecord} {db : KeyedDB}

theorem blank_opened (options : KeyedBounds) (format : KeyedFormat) :
    (KeyedDB.blank options format).Opened options format := ⟨rfl, rfl, rfl, rfl⟩

/-- Two states that lead to the same handle differ in nothing but its flag. -/
theorem eq_of_poisoned {a b : KeyedDB} {poisoned : Bool}
    (same : { a with poisoned := poisoned } = { b with poisoned := poisoned })
    (left : a.poisoned = false) (right : b.poisoned = false) : a = b := by
  obtain ⟨_, _, _, _, _, _, _⟩ := a
  obtain ⟨_, _, _, _, _, _, _⟩ := b
  simp_all

theorem eq_nil_of_logOf {rs : List KeyedWALRecord} (h : logOf rs = []) : rs = [] := by
  cases rs with
  | nil => rfl
  | cons r rs =>
    have length := congrArg List.length h
    simp [logOf] at length

/-- Of records that were decided one after the other, the log tells how many it holds. -/
theorem logOf_inj {rs ts us vs : List KeyedWALRecord} (whole : rs ++ us = ts ++ vs)
    (same : logOf rs = logOf ts) : rs = ts := by
  obtain ⟨more, rfl, -⟩ | ⟨more, rfl, -⟩ := List.append_eq_append_iff.mp whole <;>
    rw [logOf_append] at same
  · rw [eq_nil_of_logOf (List.append_right_eq_self.mp same.symm), List.append_nil]
  · rw [eq_nil_of_logOf (List.append_right_eq_self.mp same), List.append_nil]

theorem Made.blank (options : KeyedBounds) (format : KeyedFormat) :
    Made options format [] (.blank options format) :=
  ⟨rfl, trivial, by simp⟩

/-- The decisions of a run are those that the files tell. -/
theorem Made.told {st : Store} {base : KeyedDB} {covered tail : List KeyedWALRecord}
    {first : UInt64} (made : Made options format past st.db)
    (image : Image options format st base covered tail first) :
    tail.foldl applyKeyed base = past.foldl applyKeyed (.blank options format) :=
  eq_of_poisoned (image.state.symm.trans made.state) (image.opened.foldl tail).live
    ((blank_opened options format).foldl past).live

/-- More decisions, made one after the other from the state. -/
theorem Made.append (made : Made options format past db) {rs : List KeyedWALRecord} {t : KeyedDB}
    (state : t = { rs.foldl applyKeyed db with poisoned := t.poisoned }) (extend : Extends db rs)
    (proper : ∀ r ∈ rs, Utf8.trimSpace r.commandID ≠ [] ∧
      r.commandID.length ≤ keyedMaxIdentityBytes) : Made options format (past ++ rs) t := by
  rw [made.state] at state extend
  rw [foldl_applyKeyed_poisoned, ← List.foldl_append] at state
  rw [extends_poisoned] at extend
  refine ⟨state, (extends_append _ _ _).mpr ⟨made.extend, extend⟩, fun r mem => ?_⟩
  rcases List.mem_append.mp mem with old | new
  · exact made.proper r old
  · exact proper r new

/-- The loop over a group appends decisions under proper IDs only. -/
theorem proper_turn (st : Store) (size : Nat) (before : List KeyedCommitRequest) :
    ∀ r ∈ (st.turn size before).applied, Utf8.trimSpace r.commandID ≠ [] ∧
      r.commandID.length ≤ keyedMaxIdentityBytes := by
  induction before using List.reverseRecOn with
  | nil => simp [Store.turn, GroupState.start]
  | append_singleton before request ih =>
    rw [Store.turn, List.foldl_append, ← Store.turn]
    generalize st.turn size before = s at ih
    have effect := groupStep_spec {} s request
    simp only [List.foldl_cons, List.foldl_nil]
    generalize groupStep {} s request = t at effect
    cases effect with
    | accepted live run append =>
      intro r mem
      rcases List.mem_append.mp mem with old | new
      · exact ih r old
      · obtain rfl := List.mem_singleton.mp new
        obtain ⟨trimmed, short, -, callback, -, decided⟩ := executeKeyed_eq_decided run
        rw [(decideKeyed_identity decided).1]
        exact ⟨trimmed, short⟩
    | _ => exact ih

theorem Made.turn {st : Store} (made : Made options format past st.db) (size : Nat)
    (before : List KeyedCommitRequest) :
    Made options format (past ++ (st.turn size before).applied) (st.turn size before).db := by
  have staged : Staged st.db (st.dir.wal.getD []) (st.turn size before) :=
    (Staged.start _ _ _).run before
  exact made.append staged.state staged.extend (proper_turn st size before)

/-- The state that some of the decisions of a run lead to, reopened. -/
theorem Made.recovered (made : Made options format past db) :
    Made options format past (past.foldl applyKeyed (.blank options format)) := by
  refine ⟨?_, made.extend, made.proper⟩
  have live := ((blank_opened options format).foldl past).live
  generalize past.foldl applyKeyed (.blank options format) = t at live ⊢
  cases t
  cases live
  rfl

theorem Store.History.made {options : KeyedOptions} {bounds : KeyedBounds} {format : KeyedFormat}
    {st : Store} {past : List KeyedWALRecord} (normal : normalizeKeyedOptions options = .ok bounds)
    (history : st.History options format past) : Made bounds format past st.db := by
  induction history with
  | opened accepted =>
    obtain ⟨rfl, rfl⟩ := Prod.mk.inj (Except.ok.inj (accepted.symm.trans (openKeyed_empty normal)))
    exact .blank bounds format
  | @commit st past _ requests valid ih =>
    obtain ⟨state, -, extend, -⟩ := processCommitGroup_staged st.db (st.dir.wal.getD []) requests
    refine ih.append state extend ?_
    rw [applied_processCommitGroup]
    exact proper_turn st _ _
  | snapshot _ live ih => exact ih
  | @reopened st past run n db dir accepted ih =>
    rw [openKeyed_ok normal] at accepted
    obtain ⟨base, covered, tail, first, image⟩ := (run.reachable.logged normal).crash n
    obtain ⟨rfl, -⟩ := image.openStorage_ok accepted
    rw [@Made.told bounds format past ⟨st.db, st.crash n⟩ _ _ _ _ ih image]
    exact ih.recovered
  | @torn st past run requests valid n db dir accepted kept lost split log ih =>
    rw [openKeyed_ok normal] at accepted
    obtain ⟨base, covered, tail, first, image⟩ := run.reachable.logged normal
    obtain ⟨before, after, cut, split', files, same⟩ := image.tear valid n
    rw [same] at accepted
    obtain ⟨rfl, rfl⟩ := files.openStorage_ok accepted
    -- The log that recovery leaves tells which decisions of the group were kept.
    have logs : logOf before = logOf kept := by
      simp only [Option.some_inj] at log
      rw [← List.append_assoc, logOf_append, image.wal] at log
      exact List.append_cancel_left log
    obtain rfl := logOf_inj (split'.symm.trans split) logs
    obtain ⟨-, -, extend, -⟩ := processCommitGroup_staged st.db (st.dir.wal.getD []) requests
    rw [split, extends_append] at extend
    have proper : ∀ r ∈ before, Utf8.trimSpace r.commandID ≠ [] ∧
        r.commandID.length ≤ keyedMaxIdentityBytes := fun r mem =>
      proper_turn st _ requests r (by rw [← applied_processCommitGroup, split]; simp [mem])
    have whole := @Made.append _ _ _ _ ih before
      { before.foldl applyKeyed st.db with poisoned := false } rfl extend.1 proper
    have state : (tail ++ before).foldl applyKeyed base =
        (past ++ before).foldl applyKeyed (.blank bounds format) := by
      rw [List.foldl_append, ih.told image, List.foldl_append]
    rw [state]
    exact whole.recovered

/-! ## The window of a run -/

/-- A record as the window keeps it. -/
def KeyedWALRecord.entry (r : KeyedWALRecord) : Bytes × KeyedWALRecord := (r.commandID, r.retained)

theorem map_fst_entry (rs : List KeyedWALRecord) :
    (rs.map KeyedWALRecord.entry).map (·.1) = rs.map (·.commandID) := by
  simp [KeyedWALRecord.entry]

/-- Decisions that were made one after the other repeat no ID within the horizon, and the window
holds the last of them. -/
theorem Extends.saw {db : KeyedDB} {past rs : List KeyedWALRecord} (extend : Extends db rs)
    (saw : Window.Saw db.options.dedupeHorizon db.toWindow (past.map KeyedWALRecord.entry))
    (spread : Window.Spread db.options.dedupeHorizon (past.map (·.commandID))) :
    Window.Saw db.options.dedupeHorizon (rs.foldl applyKeyed db).toWindow
        ((past ++ rs).map KeyedWALRecord.entry) ∧
      Window.Spread db.options.dedupeHorizon ((past ++ rs).map (·.commandID)) := by
  induction rs generalizing db past with
  | nil => exact ⟨by simpa using saw, by simpa using spread⟩
  | cons r rs ih =>
    obtain ⟨-, fresh, later⟩ := extend
    have sawNext := saw.retain (v := r.retained) fresh db.options.horizon_pos
    rw [Window.Saw.mem_iff_rtake saw, map_fst_entry] at fresh
    have run := @ih (applyKeyed db r) (past ++ [r]) later (by rw [List.map_append]; exact sawNext)
      (by rw [List.map_append]; exact Window.spread_concat.mpr ⟨spread, fresh⟩)
    rw [List.append_assoc] at run
    exact run

/-- The decisions have the sequences that follow that of the state. -/
theorem Extends.sequence_getElem? {db : KeyedDB} {rs : List KeyedWALRecord} (extend : Extends db rs)
    {i : Nat} {r : KeyedWALRecord} (get : rs[i]? = some r) :
    r.sequence = db.sequence + UInt64.ofNat (i + 1) := by
  induction rs generalizing db i with
  | nil => simp at get
  | cons q rs ih =>
    obtain ⟨next, -, later⟩ := extend
    cases i with
    | zero =>
      obtain rfl : q = r := by simpa using get
      simpa using next
    | succ i =>
      rw [ih later (by simpa using get), applyKeyed_sequence, next, UInt64.add_assoc,
        Nat.add_comm (i + 1) 1, UInt64.ofNat_add 1 (i + 1)]
      rfl

section Window

variable (made : Made options format past db)

include made

theorem Made.saw : Window.Saw options.dedupeHorizon db.toWindow (past.map KeyedWALRecord.entry) ∧
    Window.Spread options.dedupeHorizon (past.map (·.commandID)) := by
  have run := @Extends.saw _ [] _ made.extend (.empty _) (Window.spread_nil _)
  rw [made.state]
  exact run

theorem Made.retained {r : KeyedWALRecord} (recent : r ∈ past.rtake options.dedupeHorizon) :
    db.dedupe[r.commandID]? = some r.retained := by
  refine made.saw.1.values r.entry ?_
  rw [← Window.map_rtake]
  exact List.mem_map_of_mem recent

theorem Made.not_retained {id : Bytes}
    (absent : ∀ r ∈ past.rtake options.dedupeHorizon, r.commandID ≠ id) : id ∉ db.dedupe := by
  rw [made.saw.1.mem_iff_rtake, map_fst_entry, ← Window.map_rtake, List.mem_map]
  rintro ⟨r, recent, rfl⟩
  exact absent r recent rfl

end Window

/-! ## One request -/

section Request

variable {s : GroupState} {id : Bytes} {r : KeyedWALRecord}

/-- What is staged for a retained ID is its decision. -/
theorem GroupState.Tracks.stagedDecision_eq (tracks : s.Tracks) {decision : KeyedDecision}
    (staged : s.stagedDecision id = some decision) (retained : s.db.dedupe[id]? = some r) :
    decision = r.decision := by
  simp only [GroupState.stagedDecision, Option.bind_eq_bind, Option.bind_eq_some_iff] at staged
  obtain ⟨i, known, staged⟩ := staged
  split at staged
  · rw [tracks id i r (Option.bind_eq_some_iff.mpr known) retained] at staged
    exact (Option.some_inj.mp staged).symm
  · cases staged

/-- A request with a retained ID is answered with the decision, and nothing else happens. -/
theorem groupStepEffect_retained (tracks : s.Tracks) (live : s.db.poisoned = false)
    (retained : s.db.dedupe[id]? = some r) (trimmed : Utf8.trimSpace id ≠ [])
    (short : id.length ≤ keyedMaxIdentityBytes) :
    ∃ durable, ∀ (m : Type → Type) [Monad m] [LawfulMonad m] (effect : KeyedTx → m MutationRun),
      groupStepEffect {} s ⟨none, id, some effect⟩ =
        pure (s.answer { decision := r.decision.asDuplicate } durable) := by
  cases staged : s.stagedDecision id with
  | some decision =>
    obtain rfl := tracks.stagedDecision_eq staged retained
    exact ⟨true, fun m _ _ effect => by simp [groupStepEffect, live, staged]⟩
  | none =>
    refine ⟨false, fun m _ _ effect => ?_⟩
    simp [groupStepEffect, live, staged, executeEffect, trimmed, Nat.not_lt.mpr short, retained]

/-- A request with an ID that is not retained runs its callback once and is decided on what the
callback did. -/
theorem groupStepEffect_fresh (live : s.db.poisoned = false) (fresh : id ∉ s.db.dedupe)
    (trimmed : Utf8.trimSpace id ≠ []) (short : id.length ≤ keyedMaxIdentityBytes)
    {m : Type → Type} [Monad m] [LawfulMonad m] (effect : KeyedTx → m MutationRun) :
    groupStepEffect {} s ⟨none, id, some effect⟩ =
      effect { db := s.db } >>= fun run =>
        pure (groupStep {} s ⟨none, id, some fun _ => run⟩) := by
  have unstaged : s.stagedDecision id = none := by
    simp [GroupState.stagedDecision, fresh]
  have absent : s.db.dedupe[id]? = none := by simpa using fresh
  simp only [groupStepEffect, groupStep, live, unstaged, executeEffect, executeKeyed, trimmed,
    Nat.not_lt.mpr short, absent, Bool.false_eq_true, if_false, bind_assoc, pure_bind]
  refine bind_congr fun run => ?_
  cases decideKeyed s.db id run <;> rfl

end Request

/-! ## A request in its group -/

/-- Every request gets one answer, behind those of the requests before it. -/
theorem foldl_groupStep_results (faults : Faults) (s : GroupState)
    (requests : List KeyedCommitRequest) :
    ∃ more, more.length = requests.length ∧
      (requests.foldl (groupStep faults) s).results = s.results ++ more := by
  induction requests generalizing s with
  | nil => exact ⟨[], rfl, by simp⟩
  | cons request requests ih =>
    obtain ⟨answer, here⟩ : ∃ answer, (groupStep faults s request).results =
        s.results ++ [answer] := by
      have effect := groupStep_spec faults s request
      generalize groupStep faults s request = t at effect ⊢
      cases effect <;> exact ⟨_, rfl⟩
    obtain ⟨more, length, later⟩ := ih (groupStep faults s request)
    refine ⟨answer :: more, by simp [length], ?_⟩
    rw [List.foldl_cons, later, here, List.append_assoc]
    rfl

section Group

variable {st : Store} {requests before after : List KeyedCommitRequest}
  {request : KeyedCommitRequest} (split : requests = before ++ request :: after)
  (sound : (processCommitGroup {} st.db (st.dir.wal.getD []) requests).db.poisoned = false)

include sound

/-- In a group without a storage failure the answers of the turns stand. -/
theorem processCommitGroup_sound :
    (processCommitGroup {} st.db (st.dir.wal.getD []) requests).results =
        (st.turn requests.length requests).results ∧
      (st.turn requests.length requests).db.poisoned = false := by
  rw [processCommitGroup, ← Store.turn] at sound ⊢
  obtain ⟨err, eq⟩ | ⟨-, eq⟩ := (st.turn requests.length requests).finish_cases none
  · rw [eq] at sound
    cases sound
  · rw [eq] at sound ⊢
    exact ⟨rfl, sound⟩

include split

theorem live_turn : (st.turn requests.length before).db.poisoned = false := by
  by_contra dead
  have rest := foldl_groupStep_poisoned {} (by simpa using dead :
    (st.turn requests.length before).db.poisoned = true) (request :: after)
  have last := (processCommitGroup_sound sound).2
  rw [Store.turn] at rest last
  nth_rewrite 2 [split] at last
  rw [List.foldl_append, rest] at last
  exact dead last

theorem results_turn {result : KeyedCommitResult} {durable : Bool}
    (step : groupStep {} (st.turn requests.length before) request =
      (st.turn requests.length before).answer result durable) :
    (processCommitGroup {} st.db (st.dir.wal.getD []) requests).results[before.length]? =
      some result := by
  obtain ⟨first, length, earlier⟩ : ∃ first, first.length = before.length ∧
      (st.turn requests.length before).results = [] ++ first :=
    foldl_groupStep_results {} (.start st.db (st.dir.wal.getD []) requests.length) before
  obtain ⟨more, -, later⟩ := foldl_groupStep_results {}
    (groupStep {} (st.turn requests.length before) request) after
  have all : (st.turn requests.length requests).results = first ++ result :: more := by
    rw [Store.turn]
    nth_rewrite 2 [split]
    rw [List.foldl_append, List.foldl_cons, ← Store.turn, later, step]
    simp [GroupState.answer, earlier]
  rw [(processCommitGroup_sound sound).1, all, ← length]
  simp

end Group

/-- In every run, with groups of any size, snapshots and reopenings, a request whose ID is among
those of the last decisions is answered with that decision and changes nothing, and its
callback does not run; a request with another proper ID runs its callback once and is decided
on it. Decisions under one ID are further apart than the horizon. -/
theorem decided_exactly_once {options : KeyedOptions} {format : KeyedFormat} {bounds : KeyedBounds}
    (normal : normalizeKeyedOptions options = .ok bounds) {st : Store} {past : List KeyedWALRecord}
    (history : st.History options format past) {requests before after : List KeyedCommitRequest}
    {request : KeyedCommitRequest} (split : requests = before ++ request :: after)
    {callback : MutationFunc} (given : request.mutation = some callback)
    (waiting : request.cancelled = none)
    (sound : (processCommitGroup {} st.db (st.dir.wal.getD []) requests).db.poisoned = false) :
    let s := st.turn requests.length before
    let t := st.turn requests.length (before ++ [request])
    let made := past ++ s.applied
    (∀ r ∈ made.rtake bounds.dedupeHorizon, r.commandID = request.commandID →
      (processCommitGroup {} st.db (st.dir.wal.getD []) requests).results[before.length]? =
          some { decision := r.decision.asDuplicate } ∧
        t.db = s.db ∧ t.wal = s.wal ∧ t.applied = s.applied ∧
        ∀ (m : Type → Type) [Monad m] [LawfulMonad m] (effect : KeyedTx → m MutationRun),
          groupStepEffect {} s ⟨none, request.commandID, some effect⟩ = pure t) ∧
    ((∀ r ∈ made.rtake bounds.dedupeHorizon, r.commandID ≠ request.commandID) →
      Utf8.trimSpace request.commandID ≠ [] → request.commandID.length ≤ keyedMaxIdentityBytes →
      ∀ (m : Type → Type) [Monad m] [LawfulMonad m] (effect : KeyedTx → m MutationRun),
        groupStepEffect {} s ⟨none, request.commandID, some effect⟩ =
          effect { db := s.db } >>= fun run =>
            pure (groupStep {} s ⟨none, request.commandID, some fun _ => run⟩)) ∧
    ∀ (i j : Nat) (q r : KeyedWALRecord), i < j → made[i]? = some q → made[j]? = some r →
      q.commandID = r.commandID →
        q.sequence = UInt64.ofNat (i + 1) ∧ r.sequence = UInt64.ofNat (j + 1) ∧
          i + (bounds.dedupeHorizon + 1) ≤ j := by
  intro s t made
  have holds : Made bounds format made s.db := (history.made normal).turn _ _
  have live : s.db.poisoned = false := live_turn split sound
  have tracks : s.Tracks := (GroupState.Tracks.start _ _ _).run {} before
  have next : t = groupStep {} s request := by
    simp only [t, s, Store.turn, List.foldl_append, List.foldl_cons, List.foldl_nil]
  refine ⟨?_, ?_, ?_⟩
  · intro r recent same
    obtain ⟨i, -, get⟩ := Window.mem_rtake.mp recent
    obtain ⟨trimmed, short⟩ := holds.proper r (List.mem_of_getElem? get)
    rw [same] at trimmed short
    obtain ⟨durable, answered⟩ :=
      groupStepEffect_retained tracks live (same ▸ holds.retained recent) trimmed short
    have step : groupStep {} s request =
        s.answer { decision := r.decision.asDuplicate } durable := by
      rw [groupStep_eq_effect, waiting, given, answered Id]
      rfl
    rw [next, step]
    exact ⟨results_turn split sound step, rfl, rfl, rfl, answered⟩
  · intro absent trimmed short m _ _ effect
    exact groupStepEffect_fresh live (holds.not_retained absent) trimmed short effect
  · intro i j q r less first second same
    have apart := holds.saw.2 i j q.commandID less (by simp [first]) (by simp [second, same])
    refine ⟨?_, ?_, by omega⟩
    · simpa [KeyedDB.blank] using holds.extend.sequence_getElem? first
    · simpa [KeyedDB.blank] using holds.extend.sequence_getElem? second

set_option maxRecDepth 4000 in
/-- A retry in the group behind its command. -/
theorem decided_exactly_once_retry :
    (processCommitGroup {} decidedStore.db (decidedStore.dir.wal.getD [])
      [accepting "b", accepting "a"]).results[1]? =
        some { decision := { sequence := 1, commandID := ascii "a", applied := true,
                             result := ascii "null", duplicate := true } } := by
  have history : decidedStore.History smallOptions .keyed _ :=
    .commit (.opened rfl) (by decide +kernel)
  have split : [accepting "b", accepting "a"] = [accepting "b"] ++ accepting "a" :: [] := rfl
  have once := (decided_exactly_once rfl history split rfl rfl (by decide +kernel)).1
  exact (once ⟨1, ascii "a", true, [], ascii "null", []⟩ (by decide +kernel) rfl).1

end OctetDB
