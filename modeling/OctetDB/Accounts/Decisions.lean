import OctetDB.Accounts.Submit

/-!
# The decisions of a batch

Which commands of a batch are decided, and on which book, can be said without the engine: a
command is decided if its ID is neither retained nor the ID of a command decided before it in
the batch, and each decision is made on the book that the decisions before it have staged. The
engine's loop makes exactly these decisions, and its results that are no repetitions are theirs.
-/

namespace OctetDB.Accounts

/-! ## Decisions on a book -/

/-- A book and the records of the decisions that led to it. -/
structure Decisions where
  book : Book
  records : List WalRecord := []

namespace Decisions

/-- One more decision, after which the book is changed by `next`. -/
def step (next : Book → Command → WalRecord → Book) (start : UInt64) (d : Decisions)
    (c : Command) : Decisions :=
  let r := d.book.decide (start + UInt64.ofNat d.records.length + 1) c
  ⟨next d.book c r, d.records ++ [r]⟩

def run (next : Book → Command → WalRecord → Book) (book : Book) (start : UInt64)
    (commands : List Command) : Decisions :=
  commands.foldl (step next start) ⟨book, []⟩

/-- The decisions of a batch, made on the book that it stages. -/
def batch : Book → UInt64 → List Command → Decisions := run Book.stage

/-- The decisions on commands one by one, each made on the book after the ones before. -/
def serial : Book → UInt64 → List Command → Decisions := run fun book _ r => book.apply r

section Run

variable (next : Book → Command → WalRecord → Book) (book : Book) (start : UInt64)

theorem run_concat (before : List Command) (c : Command) :
    run next book start (before ++ [c]) = (run next book start before).step next start c := by
  simp [run]

theorem length_run (commands : List Command) :
    (run next book start commands).records.length = commands.length := by
  induction commands using List.reverseRecOn with
  | nil => rfl
  | append_singleton before c ih => rw [run_concat]; simp [step, ih]

/-- What the records take over from their commands, they have in the order of the commands. -/
theorem map_run {α : Type} (commands : List Command) {f : WalRecord → α} {g : Command → α}
    (same : ∀ (book : Book) (sequence : UInt64) (c : Command), f (book.decide sequence c) = g c) :
    (run next book start commands).records.map f = commands.map g := by
  induction commands using List.reverseRecOn with
  | nil => rfl
  | append_singleton before c ih => rw [run_concat]; simp [step, ih, same]

/-- The record of each command is decided on the book that the commands before it leave. -/
theorem getElem?_run (before : List Command) (c : Command) (after : List Command) :
    (run next book start (before ++ c :: after)).records[before.length]? =
      some ((run next book start before).book.decide
        (start + UInt64.ofNat before.length + 1) c) := by
  induction after using List.reverseRecOn with
  | nil =>
    rw [run_concat, step, List.getElem?_append_right (by rw [length_run]), length_run]
    simp
  | append_singleton after d ih =>
    have split : before ++ c :: (after ++ [d]) = (before ++ c :: after) ++ [d] := by simp
    rw [split, run_concat, step, List.getElem?_append_left, ih]
    rw [length_run]
    simp

theorem sequence_run (commands : List Command) :
    (run next book start commands).records.foldl (fun _ r => r.sequence) start =
      start + UInt64.ofNat commands.length := by
  induction commands using List.reverseRecOn with
  | nil => simp [run]
  | append_singleton before c ih =>
    rw [run_concat, step, List.foldl_append]
    simp [length_run, UInt64.ofNat_add, UInt64.add_assoc]

end Run

theorem batch_concat (book : Book) (start : UInt64) (before : List Command) (c : Command) :
    batch book start (before ++ [c]) = (batch book start before).step Book.stage start c :=
  run_concat _ book start before c

theorem serial_concat (book : Book) (start : UInt64) (before : List Command) (c : Command) :
    serial book start (before ++ [c]) =
      (serial book start before).step (fun book _ r => book.apply r) start c :=
  run_concat _ book start before c

/-- The staged book shows the accounts that the records of the batch leave. -/
theorem shows_batch (book : Book) (start : UInt64) {before : List Command}
    (valid : ∀ c ∈ before, c.Valid) :
    Book.Shows (batch book start before).book
      ((batch book start before).records.foldl Book.apply book) := by
  induction before using List.reverseRecOn with
  | nil => exact .refl _
  | append_singleton before c ih =>
    rw [batch_concat, step, List.foldl_append]
    exact (ih fun d mem => valid d (by simp [mem])).stage (valid c (by simp)) _

/-- The book of serial decisions is the one that their records leave. -/
theorem book_serial (book : Book) (start : UInt64) (commands : List Command) :
    (serial book start commands).book =
      (serial book start commands).records.foldl Book.apply book := by
  induction commands using List.reverseRecOn with
  | nil => rfl
  | append_singleton before c ih => rw [serial_concat]; simp [step, ih]

end Decisions

/-! ## The decisions of the loop -/

def frameSize (commands : List Command) : Nat :=
  4 + (commands.map fun c => 125 + c.id.length).sum

namespace Core

variable {e : Core} {commands : List Command}

/-- The commands of a batch that are decided. -/
def executed (e : Core) (commands : List Command) : List Command :=
  commands.foldl (fun done c =>
    if c.id ∈ e.retained.results ∨ c.id ∈ done.map (·.id) then done else done ++ [c]) []

theorem executed_concat (e : Core) (before : List Command) (c : Command) :
    e.executed (before ++ [c]) =
      if c.id ∈ e.retained.results ∨ c.id ∈ (e.executed before).map (·.id) then e.executed before
      else e.executed before ++ [c] := by
  simp [executed]

theorem executed_subset (e : Core) (commands : List Command) :
    ∀ c ∈ e.executed commands, c ∈ commands := by
  induction commands using List.reverseRecOn with
  | nil => simp [executed]
  | append_singleton before c ih =>
    intro d mem
    rw [executed_concat] at mem
    split at mem
    · exact List.mem_append_left _ (ih d mem)
    · rcases List.mem_append.mp mem with old | new
      · exact List.mem_append_left _ (ih d old)
      · exact List.mem_append_right _ new

theorem length_executed_le (e : Core) (commands : List Command) :
    (e.executed commands).length ≤ commands.length := by
  induction commands using List.reverseRecOn with
  | nil => simp [executed]
  | append_singleton before c ih =>
    rw [executed_concat]
    split <;> simp only [List.length_append, List.length_singleton] <;> omega

/-- The IDs of the commands that are decided are new and distinct. -/
theorem executed_ids (e : Core) (commands : List Command) :
    (∀ c ∈ e.executed commands, c.id ∉ e.retained.results) ∧
      ((e.executed commands).map (·.id)).Nodup := by
  induction commands using List.reverseRecOn with
  | nil => simp [executed]
  | append_singleton before c ih =>
    obtain ⟨fresh, nodup⟩ := ih
    rw [executed_concat]
    split
    · exact ⟨fresh, nodup⟩
    · rename_i new
      obtain ⟨unretained, unseen⟩ := not_or.mp new
      refine ⟨fun d mem => ?_, ?_⟩
      · rcases List.mem_append.mp mem with old | last
        · exact fresh d old
        · rw [List.mem_singleton.mp last]
          exact unretained
      · rw [List.map_append, List.map_singleton, ← List.concat_eq_append]
        exact nodup.concat unseen

theorem executed_eq_self (fresh : ∀ c ∈ commands, c.id ∉ e.retained.results)
    (distinct : (commands.map (·.id)).Nodup) : e.executed commands = commands := by
  induction commands using List.reverseRecOn with
  | nil => rfl
  | append_singleton before c ih =>
    rw [List.map_append, List.nodup_append] at distinct
    have same := ih (fun d mem => fresh d (by simp [mem])) distinct.1
    have unseen : c.id ∉ before.map (·.id) := fun mem =>
      distinct.2.2 c.id mem c.id (by simp) rfl
    rw [executed_concat, same, if_neg]
    simp only [not_or]
    exact ⟨fresh c (by simp), unseen⟩

end Core

/-- The state of the loop after some commands. -/
structure Decides (e : Core) (before : List Command) (s : BatchState) : Prop where
  staging : Staging e s
  staged : s.core.staged = (Decisions.batch e.book e.sequence (e.executed before)).book
  records : s.records = (Decisions.batch e.book e.sequence (e.executed before)).records
  batchIDs : ∀ id, id ∈ s.batchIDs ↔ id ∈ (e.executed before).map (·.id)
  length : s.results.length = before.length
  results : (before.zip s.results).filter (fun p => !p.2.duplicate) =
    (e.executed before).zip (s.records.map WalRecord.result)

namespace Decides

variable {e : Core} {before : List Command} {s : BatchState} {c : Command}

theorem start (staging : Staging e { core := e }) (same : e.staged = e.book) :
    Decides e [] { core := e } where
  staging := staging
  staged := same
  records := rfl
  batchIDs := by simp [Core.executed]
  length := rfl
  results := rfl

theorem retained (decides : Decides e before s) : s.core.retained = e.retained := by
  rw [decides.staging.rows]

theorem zip_concat {r : Result} (decides : Decides e before s) :
    (before ++ [c]).zip (s.results ++ [r]) = before.zip s.results ++ [(c, r)] := by
  rw [List.zip_append decides.length.symm]
  rfl

/-- A repetition is answered and changes nothing else. -/
theorem repeats (decides : Decides e before s) {r : Result} (duplicate : r.duplicate = true)
    (old : c.id ∈ e.retained.results ∨ c.id ∈ (e.executed before).map (·.id)) :
    Decides e (before ++ [c]) { s with results := s.results ++ [r] } := by
  have same : e.executed (before ++ [c]) = e.executed before := by
    rw [Core.executed_concat, if_pos old]
  obtain ⟨rows, marks, run, kept, shown⟩ := decides.staging
  constructor
  · exact ⟨rows, marks, run, kept, shown⟩
  · rw [same]; exact decides.staged
  · rw [same]; exact decides.records
  · rw [same]; exact decides.batchIDs
  · simp [decides.length]
  · rw [same, decides.zip_concat, List.filter_append, decides.results]
    simp [duplicate]

theorem decide (decides : Decides e before s) (epoch : e.epoch ≠ 0) (valid : c.Valid)
    (new : ¬ (c.id ∈ e.retained.results ∨ c.id ∈ (e.executed before).map (·.id))) :
    Decides e (before ++ [c]) (s.decide c) := by
  have more : e.executed (before ++ [c]) = e.executed before ++ [c] := by
    rw [Core.executed_concat, if_neg new]
  obtain ⟨staged, -, -⟩ := s.core_decide valid (decides.staging.epoch ▸ epoch)
  have sequence : s.core.sequence = e.sequence := by rw [decides.staging.rows]
  have record : s.record c = (Decisions.batch e.book e.sequence (e.executed before)).book.decide
      (e.sequence + UInt64.ofNat
        (Decisions.batch e.book e.sequence (e.executed before)).records.length + 1) c := by
    rw [BatchState.record, sequence, decides.staged, decides.records]
  have records : (s.decide c).records = s.records ++ [s.record c] := by rw [s.decide_eq]
  constructor
  · exact decides.staging.decide epoch valid
  · rw [more, Decisions.batch_concat, staged, decides.staged, record]
    rfl
  · rw [more, Decisions.batch_concat, records, decides.records, record]
    rfl
  · intro id
    rw [s.decide_eq, more]
    simp only [Std.ExtTreeMap.mem_insert, decides.batchIDs, List.map_append, List.mem_append,
      List.map_cons, List.map_nil, List.mem_singleton]
    grind
  · rw [s.decide_eq]
    simp [decides.length]
  · have size : (e.executed before).length = (s.records.map WalRecord.result).length := by
      rw [List.length_map, decides.records, Decisions.batch, Decisions.length_run]
    rw [records, s.decide_eq, more, decides.zip_concat, List.filter_append, decides.results,
      List.map_append, List.zip_append size]
    rfl

theorem step (decides : Decides e before s) (epoch : e.epoch ≠ 0) (valid : c.Valid) :
    Decides e (before ++ [c]) (s.step c) := by
  unfold BatchState.step
  rw [decides.retained]
  cases retained : e.retained.results[c.id]? with
  | some prior =>
    refine decides.repeats rfl (.inl ?_)
    rw [Std.ExtTreeMap.mem_iff_isSome_getElem?, retained]
    rfl
  | none =>
    have unretained : c.id ∉ e.retained.results := by
      rw [Std.ExtTreeMap.mem_iff_isSome_getElem?, retained]
      simp
    cases seen : s.batchIDs[c.id]? with
    | some i =>
      refine decides.repeats rfl (.inr ?_)
      rw [← decides.batchIDs, Std.ExtTreeMap.mem_iff_isSome_getElem?, seen]
      rfl
    | none =>
      refine decides.decide epoch valid (not_or.mpr ⟨unretained, ?_⟩)
      rw [← decides.batchIDs, Std.ExtTreeMap.mem_iff_isSome_getElem?, seen]
      simp

end Decides

namespace Core

variable {e : Core} {commands : List Command}

/-- The epoch of a batch does not change what it is decided on. -/
theorem executed_nextEpoch (e : Core) (commands : List Command) :
    e.nextEpoch.executed commands = e.executed commands := by
  rw [nextEpoch_fields]
  rfl

section

variable (below : e.MarksBelow)
include below

section

variable (valid : ∀ c ∈ commands, c.Valid)
include valid

/-- The loop over a batch of valid commands makes the decisions of the batch. -/
theorem decides_decideBatch :
    Decides e.nextEpoch commands (e.decideBatch commands) := by
  obtain ⟨epoch, marks, unmarked⟩ := below.nextEpoch
  refine foldl_induction (P := Decides e.nextEpoch) ?_ ?_
  · exact .start (.start marks unmarked) (Staging.staged_eq_book unmarked)
  · intro before c after split decides
    exact decides.step epoch (valid c (by simp [split]))

theorem records_decideBatch :
    (e.decideBatch commands).records =
      (Decisions.batch e.book e.sequence (e.executed commands)).records := by
  rw [(decides_decideBatch below valid).records, executed_nextEpoch, book_nextEpoch,
    show e.nextEpoch.sequence = e.sequence by rw [nextEpoch_fields]]

theorem length_records_le :
    (e.decideBatch commands).records.length ≤ commands.length := by
  rw [records_decideBatch below valid, Decisions.batch, Decisions.length_run]
  exact e.length_executed_le commands

theorem length_walPayload_decideBatch :
    (walPayload (e.decideBatch commands).records).length = frameSize (e.executed commands) := by
  rw [walPayload, List.length_append, length_putUint32, List.length_flatMap,
    records_decideBatch below valid, Decisions.batch,
    Decisions.map_run (g := fun c => 125 + c.id.length) _ _ _ _ fun _ _ _ =>
      length_appendWALRecord _, frameSize]

/-- The results of a batch that are no repetitions are those of its decisions. -/
theorem results_decideBatch :
    (commands.zip (e.decideBatch commands).results).filter (fun p => !p.2.duplicate) =
      (e.executed commands).zip ((e.decideBatch commands).records.map WalRecord.result) := by
  rw [(decides_decideBatch below valid).results, executed_nextEpoch]

/-- A batch that is decided completely is answered with the results of its records. -/
theorem results_of_executed
    (all : e.executed commands = commands) :
    (e.decideBatch commands).results = (e.decideBatch commands).records.map WalRecord.result := by
  have length := (decides_decideBatch below valid).length
  have size : (e.decideBatch commands).records.length = commands.length := by
    rw [records_decideBatch below valid, Decisions.batch, Decisions.length_run, all]
  have filtered := results_decideBatch below valid
  rw [all] at filtered
  have whole := (List.filter_sublist (l := commands.zip (e.decideBatch commands).results)
    (p := fun p => !p.2.duplicate)).eq_of_length (by rw [filtered]; simp [length, size])
  have zips := whole.symm.trans filtered
  have second := congrArg (List.map Prod.snd) zips
  rwa [List.map_snd_zip (by omega), List.map_snd_zip (by rw [List.length_map]; omega)] at second

end

end

/-! ## Slots -/

/-- The accounts without a slot that commands are for. -/
def newSlots (e : Core) (commands : List Command) : Finset AccountID :=
  (commands.map (·.account)).toFinset.filter fun id => e.table.slot id = none

theorem mem_newSlots {e : Core} {commands : List Command} {id : AccountID} :
    id ∈ e.newSlots commands ↔ id ∈ commands.map (·.account) ∧ e.table.find id = none := by
  rw [newSlots, Finset.mem_filter, List.mem_toFinset, slot_eq_none,
    ← Option.not_isSome_iff_eq_none, isSome_book, Option.not_isSome_iff_eq_none]

/-- The accounts that a batch stages, and those its records leave, are old ones and those of the
commands that are decided. -/
theorem decided_accounts (below : e.MarksBelow) (valid : ∀ c ∈ commands, c.Valid) :
    (∀ id, ((e.decideBatch commands).core.book id).isSome →
        (e.book id).isSome ∨ id ∈ (e.executed commands).map (·.account)) ∧
      ∀ id, ((e.decideBatch commands).records.foldl Book.apply e.book id).isSome →
        (e.book id).isSome ∨ id ∈ (e.executed commands).map (·.account) := by
  have accounts : (e.decideBatch commands).records.map (·.a) =
      (e.executed commands).map (·.account) := by
    rw [records_decideBatch below valid]
    exact Decisions.map_run _ _ _ _ fun _ _ _ => rfl
  constructor
  · intro id used
    rw [← accounts]
    by_cases listed : id ∈ (e.decideBatch commands).records.map (·.a)
    · exact .inr listed
    · have same := (staging_decideBatch below valid).kept.fresh id listed
      rw [book_nextEpoch] at same
      exact .inl (same ▸ used)
  · intro id used
    rw [Book.isSome_foldl_apply, accounts] at used
    exact used.symm

end Core

end OctetDB.Accounts
