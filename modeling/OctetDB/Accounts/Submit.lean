import OctetDB.Accounts.Staging

/-!
# What a batch does

The loop over the commands of a batch keeps an invariant: the staged book shows the accounts
that the records so far make of the book at the start. From it follows what each outcome of a
batch leaves of the bank.
-/

namespace OctetDB.Accounts

/-! ## The staged book -/

/-- A book that shows the accounts of another one and knows some of its agents. -/
structure Book.Shows (S D : Book) : Prop where
  agree : Book.Agree Set.univ S D
  used : ∀ id, (S id).isSome → S id = D id

namespace Book.Shows

variable {S D : Book} {c : Command} {r : WalRecord}

theorem refl (D : Book) : Book.Shows D D := ⟨.refl _ _, fun _ _ => rfl⟩

theorem apply (shows : Book.Shows S D) (proper : r.Proper S) :
    Book.Shows (S.apply r) (D.apply r) := by
  refine ⟨(shows.agree.apply proper).mono (Set.subset_univ _), fun id used => ?_⟩
  have settled : r.settle (S.entry id) = r.settle (D.entry id) := by
    simp only [WalRecord.settle, shows.agree.account, shows.agree.present]
  rw [Book.apply] at used
  rw [Book.apply, Book.apply, settled]
  split
  · rfl
  · rename_i a
    rw [if_neg a] at used
    have known : (S id).isSome := by split at used <;> simpa using used
    rw [shows.used id known]

/-- The decision on an account that the staged book does not know changes its agent only. -/
theorem apply_right (shows : Book.Shows S D) (unknown : S r.a = none) (zero : r.effect = 0) :
    Book.Shows S (D.apply r) := by
  have kept (entry : Entry) : r.receive entry = entry := by simp [WalRecord.receive, zero]
  have settled (entry : Entry) : r.settle entry = { entry with agent := r.agent } := by
    simp [WalRecord.settle, zero]
  refine ⟨⟨fun id => ?_, fun id => ?_, fun id out => absurd (Set.mem_univ id) out⟩,
    fun id used => ?_⟩
  · rw [Book.entry_apply, kept, settled, shows.agree.account]
    split <;> simp
  · rw [Book.entry_apply, kept, settled, shows.agree.present]
    split <;> simp
  · have other : id ≠ r.a := by rintro rfl; simp [unknown] at used
    rw [shows.used id used, Book.apply, if_neg other]
    split
    · cases D id <;> simp [kept]
    · rfl

theorem stage (shows : Book.Shows S D) (valid : c.Valid) (sequence : UInt64) :
    Book.Shows (S.stage c (S.decide sequence c)) (D.apply (S.decide sequence c)) := by
  unfold Book.stage
  split
  · exact shows.apply (Book.decideWith_proper valid _ _)
  · rename_i kept
    obtain ⟨unknown, kind⟩ := not_or.mp kept
    have unknown : S c.account = none := by simpa using unknown
    exact shows.apply_right unknown (Book.effect_of_unused valid unknown kind)

end Book.Shows

/-! ## The loop -/

/-- The state of a loop that started on an engine. -/
structure Staging (e : Core) (s : BatchState) : Prop where
  rows : e.RowsOnly s.core
  marks : s.core.MarksBelow
  run : e.book.ProperRun s.records
  kept : Book.Agree {id | id ∈ s.records.map (·.a)} e.book s.core.book
  shown : Book.Shows s.core.staged (s.records.foldl Book.apply e.book)

namespace Staging

variable {e : Core} {s : BatchState} {c : Command}

theorem staged_eq_book (unmarked : e.table.All fun row => ¬ e.Marked row) :
    e.staged = e.book := by
  funext id
  rw [Core.staged, Core.book]
  cases found : e.table.find id with
  | none => rfl
  | some row => exact congrArg some (if_neg (unmarked.find found))

theorem start (marks : e.MarksBelow) (unmarked : e.table.All fun row => ¬ e.Marked row) :
    Staging e { core := e } :=
  ⟨rfl, marks, trivial, .refl _ _, staged_eq_book unmarked ▸ .refl _⟩

theorem epoch (staging : Staging e s) : s.core.epoch = e.epoch := by rw [staging.rows]

theorem decide (staging : Staging e s) (epoch : e.epoch ≠ 0) (valid : c.Valid) :
    Staging e (s.decide c) := by
  obtain ⟨staged, books, rows⟩ := s.core_decide valid (staging.epoch ▸ epoch)
  have records : (s.decide c).records = s.records ++ [s.record c] := by rw [s.decide_eq]
  have proper : (s.record c).Proper s.core.staged := Book.decideWith_proper valid _ _
  constructor
  · exact staging.rows.trans rows
  · rw [s.decide_eq]
    exact (staging.marks.slot _ _).stageDecision _ _ _
  · rw [records, Book.properRun_append]
    exact ⟨staging.run, staging.shown.agree.proper proper, trivial⟩
  · rw [records]
    have wide := staging.kept
    refine ⟨fun id => ?_, fun id => ?_, fun id out => ?_⟩
    · rw [wide.account, books.account]
    · rw [wide.present, books.present]
    · simp only [List.map_append, List.map_cons, List.map_nil, List.mem_append, List.mem_singleton,
        Set.mem_ofPred_eq, not_or] at out
      rw [wide.fresh id out.1, books.fresh id out.2]
  · rw [records, List.foldl_append, staged]
    exact staging.shown.stage valid _

theorem step (staging : Staging e s) (epoch : e.epoch ≠ 0) (valid : c.Valid) :
    Staging e (s.step c) := by
  obtain ⟨rows, marks, run, kept, shown⟩ := staging
  unfold BatchState.step
  split
  · exact ⟨rows, marks, run, kept, shown⟩
  · split
    · exact ⟨rows, marks, run, kept, shown⟩
    · exact Staging.decide ⟨rows, marks, run, kept, shown⟩ epoch valid

end Staging

/-- The decisions of a batch of valid commands. -/
theorem Core.staging_decideBatch {e : Core} (below : e.MarksBelow) {commands : List Command}
    (valid : ∀ c ∈ commands, c.Valid) : Staging e.nextEpoch (e.decideBatch commands) := by
  obtain ⟨epoch, marks, unmarked⟩ := below.nextEpoch
  refine foldl_induction (P := fun _ s => Staging e.nextEpoch s) (.start marks unmarked) ?_
  intro before c after split staging
  exact staging.step epoch (valid c (by simp [split]))

/-! ## Outcomes -/

namespace Core

variable {e : Core} {commands : List Command} {fault : Option AppendFault}

structure Takes (e : Core) (commands : List Command) : Prop where
  opened : e.closed = false
  sane : e.poisoned = none
  nonempty : commands ≠ []
  length_le : commands.length ≤ e.bounds.batchMax
  valid : ∀ c ∈ commands, c.Valid
  capacity : e.table.size + (e.newAccounts commands).card ≤ e.bounds.maxAccounts

theorem checkBatch_ok : e.checkBatch commands = .ok () ↔
    commands.length ≤ e.bounds.batchMax ∧ (∀ c ∈ commands, c.Valid) ∧
      e.table.size + (e.newAccounts commands).card ≤ e.bounds.maxAccounts := by
  unfold checkBatch
  by_cases long : commands.length > e.bounds.batchMax
  · simp only [if_pos long, reduceCtorEq, false_iff, not_and]
    intro h
    omega
  · rw [if_neg long]
    simp only [Command.Valid, ← forM_ok]
    cases check : forM commands validateCommand with
    | error err => simp
    | ok u =>
      by_cases full : e.table.size + (e.newAccounts commands).card > e.bounds.maxAccounts
      · simp only [if_pos full, reduceCtorEq, false_iff, not_and]
        intros
        omega
      · simp only [if_neg full, true_iff]
        exact ⟨by omega, trivial, by omega⟩

/-- What a batch can do: it is refused, it consists of repetitions only, its frame cannot be
made durable, or it is committed. -/
inductive Submitted (e : Core) (commands : List Command) (fault : Option AppendFault) :
    Core → Except RuntimeError (List Result) → Prop
  | refused (not : ¬ e.Takes commands) (err : RuntimeError) :
    Submitted e commands fault e (.error err)
  | empty (none : commands = []) : Submitted e commands fault e (.ok [])
  | repeated (takes : e.Takes commands) (none : (e.decideBatch commands).records = []) :
    Submitted e commands fault (e.decideBatch commands).core
      (.ok (e.decideBatch commands).results)
  | failed (takes : e.Takes commands) (new : (e.decideBatch commands).records ≠ [])
    (wal : Option WalFile) (message : String)
    (append : appendBatch e.wal (e.decideBatch commands).records fault = (wal, some message)) :
    Submitted e commands fault
      { (e.decideBatch commands).core with wal := wal, poisoned := some message }
      (.error ⟨.durabilityWriteFailed, message⟩)
  | committed (takes : e.Takes commands) (new : (e.decideBatch commands).records ≠ [])
    (wal : Option WalFile)
    (append : appendBatch e.wal (e.decideBatch commands).records fault = (wal, none)) :
    Submitted e commands fault
      ((e.decideBatch commands).records.foldl applyDurable
        { (e.decideBatch commands).core with wal := wal })
      (.ok (e.decideBatch commands).results)

theorem nextEpoch_fields (e : Core) : e.nextEpoch =
    { e with table := e.nextEpoch.table, epoch := e.nextEpoch.epoch } := by
  unfold nextEpoch
  split <;> rfl

/-- The loop over the commands changes rows and the epoch only. -/
theorem decideBatch_fields (below : e.MarksBelow) (valid : ∀ c ∈ commands, c.Valid) :
    (e.decideBatch commands).core =
      { e with table := (e.decideBatch commands).core.table, epoch := e.nextEpoch.epoch } := by
  have rows := (staging_decideBatch below valid).rows
  unfold RowsOnly at rows
  rw [rows, nextEpoch_fields]

theorem submitBatch_spec (below : e.MarksBelow) (commands : List Command)
    (fault : Option AppendFault) : Submitted e commands fault (e.submitBatch commands fault).1
      (e.submitBatch commands fault).2 := by
  unfold submitBatch
  by_cases closed : e.closed = true
  · rw [if_pos closed]
    exact .refused (fun takes => by simp [takes.opened] at closed) _
  rw [if_neg closed]
  cases poisoned : e.poisoned with
  | some message => exact .refused (fun takes => by simp [takes.sane] at poisoned) _
  | none =>
    by_cases none : commands = []
    · simp only [if_pos none]
      exact .empty none
    simp only [if_neg none]
    cases check : e.checkBatch commands with
    | error err =>
      refine .refused (fun takes => ?_) _
      have := checkBatch_ok.mpr ⟨takes.length_le, takes.valid, takes.capacity⟩
      rw [check] at this
      cases this
    | ok u =>
      obtain ⟨length_le, valid, capacity⟩ := checkBatch_ok.mp check
      have takes : e.Takes commands :=
        ⟨by simpa using closed, poisoned, none, length_le, valid, capacity⟩
      have wal : (e.decideBatch commands).core.wal = e.wal := by
        rw [decideBatch_fields below valid]
      simp only [BatchState.commit]
      by_cases none : (e.decideBatch commands).records = []
      · rw [if_pos none]
        exact .repeated takes none
      · rw [if_neg none, wal]
        cases append : appendBatch e.wal (e.decideBatch commands).records fault with
        | mk wal failure =>
          cases failure with
          | none => exact .committed takes none wal append
          | some message => exact .failed takes none wal message append

theorem opened_of_ok {results : List Result}
    (ok : (e.submitBatch commands fault).2 = .ok results) :
    e.closed = false ∧ e.poisoned = none := by
  unfold submitBatch at ok
  cases closed : e.closed
  · cases poisoned : e.poisoned
    · exact ⟨rfl, rfl⟩
    · simp [closed, poisoned] at ok
  · simp [closed] at ok

/-! ## The bank after a batch -/

theorem bank_nextEpoch (e : Core) : e.nextEpoch.bank = e.bank := by
  have book : e.nextEpoch.book = e.book := by
    funext id
    unfold nextEpoch
    split
    · simp [book, Function.comp_def]
    · rfl
  rw [bank, book, nextEpoch_fields]
  rfl

theorem book_nextEpoch (e : Core) : e.nextEpoch.book = e.book := congrArg Bank.book e.bank_nextEpoch

/-- The bank behind the staging is the one before the batch, up to agents and slots. -/
theorem bank_decideBatch (below : e.MarksBelow) (valid : ∀ c ∈ commands, c.Valid) :
    (e.decideBatch commands).core.bank =
      { e.bank with book := (e.decideBatch commands).core.book } := by
  rw [bank, decideBatch_fields below valid]
  rfl

theorem bounds_decideBatch (below : e.MarksBelow) (valid : ∀ c ∈ commands, c.Valid) :
    (e.decideBatch commands).core.bounds = e.bounds := by
  rw [decideBatch_fields below valid]

/-- The records of a batch leave the bank as if nothing had been staged. -/
theorem bank_committed (below : e.MarksBelow) (valid : ∀ c ∈ commands, c.Valid)
    (wal : Option WalFile) :
    ((e.decideBatch commands).records.foldl applyDurable
      { (e.decideBatch commands).core with wal := wal }).bank =
      (e.decideBatch commands).records.foldl (Bank.apply e.bounds.dedupeWindow) e.bank := by
  have staging := staging_decideBatch below valid
  have run := staging.kept.properRun staging.run
  have books := staging.kept.foldl_apply staging.run
  rw [book_nextEpoch] at books
  have applied := bank_foldl_applyDurable
    (e := { (e.decideBatch commands).core with wal := wal }) run
  have before : { (e.decideBatch commands).core with wal := wal }.bank =
      { e.bank with book := (e.decideBatch commands).core.book } :=
    bank_decideBatch below valid
  rw [applied, before, Bank.foldl_apply, Bank.foldl_apply]
  simp only [bounds_decideBatch below valid, ← books]
  rfl

theorem book_committed (below : e.MarksBelow) (valid : ∀ c ∈ commands, c.Valid)
    (wal : Option WalFile) :
    ((e.decideBatch commands).records.foldl applyDurable
      { (e.decideBatch commands).core with wal := wal }).book =
      (e.decideBatch commands).records.foldl Book.apply e.book := by
  have bank := bank_committed below valid wal
  rw [Bank.foldl_apply] at bank
  exact congrArg Bank.book bank

/-- The engines differ in what records change only. -/
structure SameHandle (e t : Core) : Prop where
  bounds : t.bounds = e.bounds
  wal : t.wal = e.wal
  closed : t.closed = e.closed
  poisoned : t.poisoned = e.poisoned

theorem SameHandle.trans {t u : Core} (first : e.SameHandle t) (second : t.SameHandle u) :
    e.SameHandle u :=
  ⟨second.bounds.trans first.bounds, second.wal.trans first.wal,
    second.closed.trans first.closed, second.poisoned.trans first.poisoned⟩

theorem sameHandle_applyDurable {r : WalRecord} (proper : r.Proper e.book) :
    e.SameHandle (e.applyDurable r) := by
  rw [applyDurable_eq proper.rejected]
  exact ⟨rfl, rfl, rfl, rfl⟩

theorem sameHandle_foldl {rs : List WalRecord} (run : e.book.ProperRun rs) :
    e.SameHandle (rs.foldl applyDurable e) := by
  induction rs generalizing e with
  | nil => exact ⟨rfl, rfl, rfl, rfl⟩
  | cons r rs ih =>
    obtain ⟨proper, run⟩ := run
    rw [← book_applyDurable proper] at run
    exact (sameHandle_applyDurable proper).trans (ih run)

/-- A committed batch leaves the handle as it was, with the new log. -/
theorem sameHandle_committed (below : e.MarksBelow) (valid : ∀ c ∈ commands, c.Valid)
    (wal : Option WalFile) :
    SameHandle { e with wal := wal } ((e.decideBatch commands).records.foldl applyDurable
      { (e.decideBatch commands).core with wal := wal }) := by
  have staging := staging_decideBatch below valid
  have run := staging.kept.properRun staging.run
  have before : SameHandle { e with wal := wal }
      { (e.decideBatch commands).core with wal := wal } := by
    rw [decideBatch_fields below valid]
    exact ⟨rfl, rfl, rfl, rfl⟩
  exact before.trans (sameHandle_foldl run)

theorem MarksBelow.foldl (below : e.MarksBelow) (rs : List WalRecord) :
    (rs.foldl Core.applyDurable e).MarksBelow := by
  induction rs generalizing e with
  | nil => exact below
  | cons r rs ih => exact ih (below.applyDurable r)

theorem MarksBelow.submitBatch (below : e.MarksBelow) (commands : List Command)
    (fault : Option AppendFault) : (e.submitBatch commands fault).1.MarksBelow := by
  have outcome := submitBatch_spec below commands fault
  generalize (e.submitBatch commands fault).1 = t at outcome
  generalize (e.submitBatch commands fault).2 = result at outcome
  cases outcome with
  | refused => exact below
  | empty => exact below
  | repeated takes | failed takes => exact (staging_decideBatch below takes.valid).marks
  | committed takes new wal =>
    exact MarksBelow.foldl (e := { (e.decideBatch commands).core with wal := wal })
      (staging_decideBatch below takes.valid).marks _

/-- A batch of repetitions changes nothing but the epoch. -/
theorem bank_repeated (below : e.MarksBelow) (valid : ∀ c ∈ commands, c.Valid)
    (none : (e.decideBatch commands).records = []) :
    (e.decideBatch commands).core.bank = e.bank := by
  have kept := (staging_decideBatch below valid).kept
  rw [none] at kept
  have same : (e.decideBatch commands).core.book = e.book := by
    rw [← e.book_nextEpoch, (kept.mono (by simp)).eq]
  rw [bank_decideBatch below valid, same]
  rfl

end Core

end OctetDB.Accounts
