import OctetDB.Keyed.Group

/-!
# Group commit against one request per Sync

Without storage failures a list of requests leaves the same records, window, sequence and
log however it is cut into groups. The answers agree as well, with one exception: a request
without a mutation that repeats an ID decided by an earlier request of its own group is
answered as a duplicate, while on its own it is refused.
-/

namespace OctetDB

/-- A handle and what it has answered and appended so far. -/
structure Committed where
  db : KeyedDB
  wal : Bytes
  results : List KeyedCommitResult := []
  frames : List KeyedWALRecord := []

variable {c : Committed} {s : GroupState} {staged : ByteMap Nat}

namespace Committed

def group (c : Committed) (requests : List KeyedCommitRequest) : Committed :=
  let outcome := processCommitGroup {} c.db c.wal requests
  { db := outcome.db, wal := outcome.wal, results := c.results ++ outcome.results,
    frames := c.frames ++ outcome.applied }

def groups (c : Committed) (cut : List (List KeyedCommitRequest)) : Committed :=
  cut.foldl group c

def serial (c : Committed) (requests : List KeyedCommitRequest) : Committed :=
  requests.foldl (fun c request => c.group [request]) c

def answer (c : Committed) (result : KeyedCommitResult) : Committed :=
  { c with results := c.results ++ [result] }

@[simp] theorem serial_nil (c : Committed) : c.serial [] = c := rfl
@[simp] theorem serial_cons (c : Committed) (r : KeyedCommitRequest)
    (rs : List KeyedCommitRequest) : c.serial (r :: rs) = (c.group [r]).serial rs := rfl
theorem serial_append (c : Committed) (rs ss : List KeyedCommitRequest) :
    c.serial (rs ++ ss) = (c.serial rs).serial ss := List.foldl_append

theorem group_one (c : Committed) (live : c.db.poisoned = false) (r : KeyedCommitRequest) :
    c.group [r] =
      match r.cancelled with
      | some message => c.answer { err := some (.context message) }
      | none =>
        match executeKeyed c.db r.commandID r.mutation with
        | .refused err => c.answer { err := some err }
        | .duplicate decision => c.answer { decision := decision }
        | .panicked value => c.answer { panicValue := some value }
        | .decided record =>
          match appendKeyedFrame c.wal record none with
          | (wal, some err) =>
            { c with db := c.db.poison, wal := wal }.answer
              { decision := record.decision, err := some (.product err) }
          | (wal, none) =>
            ⟨applyKeyed c.db record, wal, c.results ++ [{ decision := record.decision }],
              c.frames ++ [record]⟩ := by
  have one : c.group [r] =
      let outcome := (groupStep {} (.start c.db c.wal 1) r).finish none
      ⟨outcome.db, outcome.wal, c.results ++ outcome.results, c.frames ++ outcome.applied⟩ := rfl
  rw [one]
  cases done : r.cancelled with
  | some message =>
    simp [groupStep, GroupState.start, live, done, GroupState.answer, GroupState.finish, answer]
  | none =>
    cases run : executeKeyed c.db r.commandID r.mutation with
    | decided record =>
      rcases append : appendKeyedFrame c.wal record none with ⟨wal, _ | err⟩ <;>
        simp [groupStep, GroupState.start, live, done, GroupState.stagedDecision, run,
          GroupState.stage, append, GroupState.accept, GroupState.fail, GroupState.answer,
          GroupState.finish, answer, KeyedDB.poison]
    | _ =>
      simp [groupStep, GroupState.start, live, done, GroupState.stagedDecision, run,
        GroupState.answer, GroupState.finish, answer]

theorem group_one_poisoned (dead : c.db.poisoned = true) (r : KeyedCommitRequest) :
    (c.group [r]).db.poisoned = true := by
  simp [group, processCommitGroup, groupStep, GroupState.start, dead, GroupState.answer,
    GroupState.finish]

/-- A handle that ends a run unpoisoned was never poisoned. -/
theorem live_of_serial {c : Committed} {rs : List KeyedCommitRequest}
    (live : (c.serial rs).db.poisoned = false) : c.db.poisoned = false := by
  induction rs generalizing c with
  | nil => exact live
  | cons r rs ih =>
    by_contra dead
    have next := group_one_poisoned (by simpa using dead) r
    rw [ih (c := c.group [r]) live] at next
    cases next

/-! ## Where the answers differ -/

/-- The request carries no mutation and repeats an ID that one of the frames decided and that
is still retained. -/
def NilRepeat (c : Committed) (r : KeyedCommitRequest) : Prop :=
  r.cancelled = none ∧ r.mutation = none ∧ r.commandID ∈ c.frames.map (·.commandID) ∧
    r.commandID ∈ c.db.dedupe

/-- The handle at the start of a group, with nothing answered or appended yet. -/
def fresh (c : Committed) : Committed := { db := c.db, wal := c.wal }

/-- No request of the group is a nil repeat when its turn comes. -/
def Regular (c : Committed) (rs : List KeyedCommitRequest) : Prop :=
  ∀ before r after, rs = before ++ r :: after → ¬ NilRepeat (c.fresh.serial before) r

def AllRegular (c : Committed) : List (List KeyedCommitRequest) → Prop
  | [] => True
  | rs :: cut => Regular c rs ∧ AllRegular (c.serial rs) cut

/-! ## The loop over a group follows the serial run -/

/-- The loop over a group of several requests and the serial run over the same requests. -/
structure Follows (s : GroupState) (c : Committed) (staged : ByteMap Nat) : Prop where
  db : s.db = c.db
  wal : s.wal = c.wal
  applied : s.applied = c.frames
  ok : s.storageErr = none
  staging : s.staged = some staged
  mem_staged : ∀ id, id ∈ staged ↔ id ∈ c.frames.map (·.commandID)
  decision : ∀ (id : Bytes) (i : Nat) (record : KeyedWALRecord), staged[id]? = some i →
    c.db.dedupe[id]? = some record → (s.results[i]?).map (·.decision) = some record.decision
  proper : ∀ record ∈ c.frames, Utf8.trimSpace record.commandID ≠ [] ∧
    record.commandID.length ≤ keyedMaxIdentityBytes

theorem Follows.tracks (f : Follows s c staged) : s.Tracks := by
  intro id i record known retained
  rw [f.staging, Option.bind_some] at known
  exact f.decision id i record known (f.db ▸ retained)

theorem Follows.answer {s : GroupState} {c : Committed} {staged : ByteMap Nat}
    (f : Follows s c staged) (x y : KeyedCommitResult) (durable : Bool) :
    Follows (s.answer x durable) (c.answer y) staged :=
  { f with
    decision := fun id i record known retained => f.tracks.answer x durable id i record
      (by rw [GroupState.answer, f.staging]; exact known)
      (by rw [GroupState.answer, f.db]; exact retained) }

/-- The decision staged for an ID is the one the window retains. -/
theorem Follows.stagedDecision_eq (f : Follows s c staged) {id : Bytes} {decision : KeyedDecision}
    (h : s.stagedDecision id = some decision) :
    id ∈ c.frames.map (·.commandID) ∧
      ∃ record, c.db.dedupe[id]? = some record ∧ record.decision = decision := by
  simp only [GroupState.stagedDecision, f.staging, Option.bind_some, Option.bind_eq_bind,
    Option.bind_eq_some_iff] at h
  obtain ⟨i, hi, h⟩ := h
  split at h
  · rename_i retained
    rw [f.db, Std.ExtTreeMap.mem_iff_isSome_getElem?] at retained
    obtain ⟨record, hr⟩ := Option.isSome_iff_exists.mp retained
    have same := f.decision id i record hi hr
    rw [h, Option.some_inj] at same
    refine ⟨(f.mem_staged id).mp ?_, record, hr, same.symm⟩
    rw [Std.ExtTreeMap.mem_iff_isSome_getElem?, hi]
    rfl
  · cases h

theorem Follows.stagedDecision_none (f : Follows s c staged) {id : Bytes}
    (h : s.stagedDecision id = none) (decided : id ∈ c.frames.map (·.commandID)) :
    id ∉ c.db.dedupe := by
  intro retained
  have present := (f.mem_staged id).mpr decided
  rw [Std.ExtTreeMap.mem_iff_isSome_getElem?] at present
  obtain ⟨i, hi⟩ := Option.isSome_iff_exists.mp present
  have get := retained
  rw [Std.ExtTreeMap.mem_iff_isSome_getElem?] at get
  obtain ⟨record, hr⟩ := Option.isSome_iff_exists.mp get
  have same := f.decision id i record hi hr
  rw [← f.db] at retained
  have found : s.stagedDecision id = (s.results[i]?).map (·.decision) := by
    simp [GroupState.stagedDecision, f.staging, hi, retained]
  rw [found, same] at h
  cases h

/-- A decided record, appended and applied on both sides. -/
theorem Follows.accept {s : GroupState} {c : Committed} {staged : ByteMap Nat}
    (f : Follows s c staged) {id : Bytes} {mutation : Option MutationFunc}
    {record : KeyedWALRecord} (run : executeKeyed c.db id mutation = .decided record)
    (wal : Bytes) :
    Follows ((s.accept wal record).answer { decision := record.decision } true)
      ⟨applyKeyed c.db record, wal, c.results ++ [{ decision := record.decision }],
        c.frames ++ [record]⟩
      (staged.insert record.commandID s.results.length) := by
  obtain ⟨trimmed, short, -, callback, -, decided⟩ := executeKeyed_eq_decided run
  obtain ⟨same, -⟩ := decideKeyed_identity decided
  refine ⟨?_, rfl, ?_, f.ok, ?_, ?_, ?_, ?_⟩
  · simp [GroupState.accept, GroupState.answer, f.db]
  · simp [GroupState.accept, GroupState.answer, f.applied]
  · simp [GroupState.accept, GroupState.answer, f.staging]
  · intro k
    have old := f.mem_staged k
    simp only [Std.ExtTreeMap.mem_insert, List.map_append, List.mem_append, List.map_cons,
      List.map_nil, List.mem_singleton]
    grind
  · intro k i retained known kept
    refine f.tracks.accept wal record k i retained ?_ ?_
    · simpa [GroupState.answer, GroupState.accept, f.staging] using known
    · simpa [GroupState.answer, GroupState.accept, f.db] using kept
  · intro r hr
    rcases List.mem_append.mp hr with hr | hr
    · exact f.proper r hr
    · obtain rfl := List.mem_singleton.mp hr
      exact same ▸ ⟨trimmed, short⟩

/-- Both sides after one more request: still together, and with the same answer to it unless it
is a nil repeat. -/
def Together (s : GroupState) (c : Committed) (r : KeyedCommitRequest) (s' : GroupState)
    (c' : Committed) : Prop :=
  ∃ staged x y, Follows s' c' staged ∧ s'.results = s.results ++ [x] ∧
    c'.results = c.results ++ [y] ∧ (x = y ↔ ¬ NilRepeat c r)

theorem Follows.step {s : GroupState} {c : Committed} {staged : ByteMap Nat}
    (f : Follows s c staged) (r : KeyedCommitRequest)
    (live : (c.group [r]).db.poisoned = false) :
    Together s c r (groupStep {} s r) (c.group [r]) := by
  have alive : c.db.poisoned = false := @live_of_serial c [r] live
  have alive' : s.db.poisoned = false := f.db ▸ alive
  have answered (x y : KeyedCommitResult) (durable : Bool) (agree : x = y ↔ ¬ NilRepeat c r) :
      Together s c r (s.answer x durable) (c.answer y) :=
    ⟨staged, x, y, f.answer x y durable, rfl, rfl, agree⟩
  rw [group_one c alive] at live ⊢
  cases done : r.cancelled with
  | some message =>
    rw [show groupStep {} s r = s.answer { err := some (.context message) } false by
      simp [groupStep, alive', done]]
    exact answered _ _ _ (by simp [NilRepeat, done])
  | none =>
    cases repeated : s.stagedDecision r.commandID with
    | some decision =>
      obtain ⟨decided, record, retained, rfl⟩ := f.stagedDecision_eq repeated
      obtain ⟨trimmed, short⟩ : Utf8.trimSpace r.commandID ≠ [] ∧
          r.commandID.length ≤ keyedMaxIdentityBytes := by
        obtain ⟨original, mem, same⟩ := List.mem_map.mp decided
        exact same ▸ f.proper original mem
      have present : r.commandID ∈ c.db.dedupe := by
        rw [Std.ExtTreeMap.mem_iff_isSome_getElem?, retained]; rfl
      rw [show groupStep {} s r = s.answer { decision := record.decision.asDuplicate } true by
        simp [groupStep, alive', done, repeated]]
      -- On its own the request is refused without a mutation, before the window is asked.
      cases mutation : r.mutation with
      | none =>
        simp only [executeKeyed, if_neg trimmed, if_neg (not_lt.mpr short), Execution.refuse]
        exact answered _ _ _ (by simp [NilRepeat, done, mutation, decided, present])
      | some callback =>
        simp only [executeKeyed, if_neg trimmed, if_neg (not_lt.mpr short), retained]
        exact answered _ _ _ (by simp [NilRepeat, mutation])
    | none =>
      have regular : ¬ NilRepeat c r := fun h =>
        f.stagedDecision_none repeated h.2.2.1 h.2.2.2
      cases run : executeKeyed c.db r.commandID r.mutation with
      | decided record =>
        rcases append : appendKeyedFrame c.wal record none with ⟨wal, _ | err⟩
        · simp only [groupStep, alive, done, repeated, f.db, run, Bool.false_eq_true, if_false,
            GroupState.stage, f.wal, append]
          exact ⟨_, _, _, f.accept run wal, rfl, rfl, by simp [regular]⟩
        · simp [done, run, append, Committed.answer, KeyedDB.poison] at live
      | _ =>
        simp only [groupStep, alive, done, repeated, f.db, run, Bool.false_eq_true, if_false]
        exact answered _ _ _ (by simp [regular])

theorem Follows.run (f : Follows s c staged) (same : s.results.length = c.results.length)
    (rs : List KeyedCommitRequest) (live : (c.serial rs).db.poisoned = false) :
    (∃ staged', Follows (rs.foldl (groupStep {}) s) (c.serial rs) staged') ∧
      (rs.foldl (groupStep {}) s).results.length = (c.serial rs).results.length ∧
      ((rs.foldl (groupStep {}) s).results = (c.serial rs).results ↔
        s.results = c.results ∧ ∀ before r after, rs = before ++ r :: after →
          ¬ NilRepeat (c.serial before) r) := by
  induction rs generalizing s c staged with
  | nil => exact ⟨⟨staged, f⟩, same, by simp⟩
  | cons r rs ih =>
    obtain ⟨staged', x, y, f', hx, hy, agree⟩ := f.step r (live_of_serial live)
    obtain ⟨follows, lengths, results⟩ := ih f' (by simp [hx, hy, same]) live
    refine ⟨follows, lengths, results.trans ?_⟩
    have split : s.results ++ [x] = c.results ++ [y] ↔ s.results = c.results ∧ x = y := by
      refine ⟨fun h => ?_, fun ⟨h, h'⟩ => by rw [h, h']⟩
      obtain ⟨init, last⟩ := List.append_inj h same
      exact ⟨init, List.singleton_inj.mp last⟩
    rw [hx, hy, split, agree, and_assoc]
    refine and_congr_right fun _ => ⟨?_, ?_⟩
    · rintro ⟨first, later⟩ before q after eq
      cases before with
      | nil => obtain ⟨rfl, -⟩ := List.cons.inj eq; exact first
      | cons p before => obtain ⟨rfl, rfl⟩ := List.cons.inj eq; exact later before q after rfl
    · intro all
      exact ⟨all [] r rs rfl, fun before q after eq => all (r :: before) q after (by rw [eq]; rfl)⟩

/-- The same run, told from the handle alone. -/
theorem serial_eq (c : Committed) (rs : List KeyedCommitRequest) :
    c.serial rs = { c.fresh.serial rs with
      results := c.results ++ (c.fresh.serial rs).results
      frames := c.frames ++ (c.fresh.serial rs).frames } := by
  induction rs using List.reverseRecOn with
  | nil => simp [fresh]
  | append_singleton rs r ih =>
    rw [serial_append, ih, serial_append]
    simp [group]

/-- One group on its own: the handle and the frames are those of the serial run, and so are
the answers exactly if the group is regular. -/
theorem group_serial (c : Committed) (rs : List KeyedCommitRequest)
    (live : (c.fresh.serial rs).db.poisoned = false) :
    let outcome := processCommitGroup {} c.db c.wal rs
    let run := c.fresh.serial rs
    outcome.db = run.db ∧ outcome.wal = run.wal ∧ outcome.applied = run.frames ∧
      outcome.results.length = run.results.length ∧
      (outcome.results = run.results ↔ Regular c rs) := by
  -- Below two requests nothing is staged and the group is the serial run itself.
  match rs with
  | [] =>
    refine ⟨rfl, rfl, rfl, rfl, fun _ before r after eq => ?_, fun _ => rfl⟩
    exact absurd eq (by simp)
  | [r] =>
    have one : c.fresh.serial [r] = { c.fresh with
        db := (processCommitGroup {} c.db c.wal [r]).db
        wal := (processCommitGroup {} c.db c.wal [r]).wal
        results := (processCommitGroup {} c.db c.wal [r]).results
        frames := (processCommitGroup {} c.db c.wal [r]).applied } := by
      simp [group, fresh]
    rw [one]
    refine ⟨rfl, rfl, rfl, rfl, fun _ before q after eq => ?_, fun _ => rfl⟩
    obtain rfl : before = [] := by
      have := congrArg List.length eq
      simp at this
      exact List.length_eq_zero_iff.mp (by omega)
    simp [NilRepeat, fresh]
  | r :: q :: rs =>
    have start : Follows (.start c.db c.wal (r :: q :: rs).length) c.fresh ∅ :=
      ⟨rfl, rfl, rfl, rfl, by simp [GroupState.start], by simp [fresh], by simp, by simp [fresh]⟩
    obtain ⟨⟨staged, follows⟩, lengths, results⟩ := start.run rfl _ live
    have finished : processCommitGroup {} c.db c.wal (r :: q :: rs) =
        let s := (r :: q :: rs).foldl (groupStep {}) (.start c.db c.wal (r :: q :: rs).length)
        ⟨s.db, s.wal, s.results, s.applied, s.applied⟩ := by
      simp only [processCommitGroup, GroupState.finish, follows.ok, Option.map_none, ite_self]
    rw [finished]
    refine ⟨follows.db, follows.wal, follows.applied, lengths, results.trans ?_⟩
    simp [Regular, GroupState.start, fresh]

end Committed

/-- A cut of a list of requests into the consecutive groups the coordinator takes. -/
structure Cut (requests : List KeyedCommitRequest) where
  groups : List (List KeyedCommitRequest)
  flatten : groups.flatten = requests
  size_le : ∀ group ∈ groups, group.length ≤ keyedMaxCommitGroup

namespace Committed

/-- Any number of groups, from handles that differ in their answers at most. -/
theorem groups_serial {d : Committed} (cut : List (List KeyedCommitRequest)) (db : c.db = d.db)
    (wal : c.wal = d.wal) (frames : c.frames = d.frames)
    (same : c.results.length = d.results.length)
    (live : (d.serial cut.flatten).db.poisoned = false) :
    c.groups cut = d.serial cut.flatten ↔ c.results = d.results ∧ AllRegular d cut := by
  induction cut generalizing c d with
  | nil =>
    obtain ⟨cdb, cwal, cresults, cframes⟩ := c
    obtain ⟨ddb, dwal, dresults, dframes⟩ := d
    simp_all [groups, AllRegular]
  | cons rs cut ih =>
    rw [List.flatten_cons, serial_append] at live ⊢
    have here : (c.fresh.serial rs).db.poisoned = false := by
      have now := live_of_serial live
      rw [serial_eq] at now
      simpa [fresh, db, wal] using now
    obtain ⟨sdb, swal, sframes, slength, sresults⟩ := group_serial c rs here
    have twin : c.fresh = d.fresh := by simp [fresh, db, wal]
    have next := serial_eq d rs
    rw [← twin] at next
    have step := @ih (c.group rs) (d.serial rs) (by rw [next]; exact sdb) (by rw [next]; exact swal)
      (by rw [next]; simp [group, frames, sframes]) (by rw [next]; simp [group, same, slength]) live
    rw [groups, List.foldl_cons, ← groups, step, AllRegular]
    have split : (c.group rs).results = (d.serial rs).results ↔
        c.results = d.results ∧ Regular c rs := by
      rw [next, ← sresults]
      refine ⟨fun h => List.append_inj h same, fun ⟨h, h'⟩ => ?_⟩
      simp [group, h, h']
    rw [split, Regular, Regular, twin, and_assoc]

end Committed

/-- However requests are cut into groups, they leave the handle and get the answers of the
disabled mode, exactly if no request without a mutation repeats an ID that an earlier request
of its group decided and that is still retained. -/
theorem groups_eq_serial_iff {requests : List KeyedCommitRequest} (cut : Cut requests)
    (db : KeyedDB) (wal : Bytes)
    (live : (Committed.serial { db := db, wal := wal } requests).db.poisoned = false) :
    Committed.groups { db := db, wal := wal } cut.groups =
        Committed.serial { db := db, wal := wal } requests ↔
      Committed.AllRegular { db := db, wal := wal } cut.groups := by
  obtain ⟨groups, rfl, size⟩ := cut
  simpa using Committed.groups_serial groups rfl rfl rfl rfl live

section TwoRequests

def keyedDB : KeyedDB := { options := smallBounds, format := .keyed }

/-- Decides the command with the result `null` and no writes. -/
def accepting (id : String) : KeyedCommitRequest where
  commandID := ascii id
  mutation := some fun _ => ⟨∅, .returned (.ok nullText)⟩

def withoutMutation (id : String) : KeyedCommitRequest where
  commandID := ascii id
  mutation := none

def pairCut : Cut [accepting "a", accepting "a"] where
  groups := [[accepting "a", accepting "a"]]
  flatten := rfl
  size_le := by simp [keyedMaxCommitGroup]

/-- A command and its retry, with a mutation, in one group. -/
theorem groups_eq_serial_retry :
    Committed.groups { db := keyedDB, wal := [] } pairCut.groups =
      Committed.serial { db := keyedDB, wal := [] } [accepting "a", accepting "a"] := by
  refine (groups_eq_serial_iff pairCut keyedDB [] (by decide +kernel)).mpr ⟨?_, trivial⟩
  rintro before r after eq ⟨-, none, -, -⟩
  have mem : r ∈ [accepting "a", accepting "a"] := by rw [eq]; simp
  simp only [List.mem_cons, List.not_mem_nil, or_false, or_self] at mem
  subst mem
  cases none

/-- A command and a retry of it without a mutation: in one group the retry gets the duplicate
decision and no error, on its own it is refused. -/
theorem nil_repeat_answers_differ :
    let start : Committed := { db := keyedDB, wal := [] }
    let requests := [accepting "a", withoutMutation "a"]
    (start.serial requests).db.poisoned = false ∧
    (start.groups [requests]).results.map (·.err) = [none, none] ∧
    (start.serial requests).results.map (·.err) =
      [none, some (.product ⟨.invalidInput, "submit_keyed", "mutation is required"⟩)] := by
  decide +kernel

end TwoRequests

end OctetDB
