import OctetDB.Accounts.Runs

/-!
# The decisions of a run

A run is recorded with the records of all decisions that were made in it, over snapshots,
failures and recoveries. The records of a batch that failed are in doubt until the engine is
opened again: its sequence then tells whether the log held them. As long as the steps are safe,
the bank of the engine is what the recorded decisions make of an empty bank.
-/

namespace OctetDB.Accounts

/-! ## Records of decisions -/

/-- Every record is one of a decision on a book that shows what the records before it leave. -/
def Book.DecidedRun : Book → List WalRecord → Prop
  | _, [] => True
  | D, r :: rs =>
    (∃ S c, Book.Shows S D ∧ c.Valid ∧ r = S.decide r.sequence c) ∧ (D.apply r).DecidedRun rs

theorem Book.decidedRun_append {D : Book} {rs ts : List WalRecord} :
    D.DecidedRun (rs ++ ts) ↔ D.DecidedRun rs ∧ (rs.foldl Book.apply D).DecidedRun ts := by
  induction rs generalizing D with
  | nil => simp [DecidedRun]
  | cons r rs ih => simp [DecidedRun, ih, and_assoc]

variable {commands : List Command} {i : Nat} {e : Core}

theorem Decisions.decidedRun_batch (book : Book) (start : UInt64)
    (valid : ∀ c ∈ commands, c.Valid) : book.DecidedRun (batch book start commands).records := by
  induction commands using List.reverseRecOn with
  | nil => trivial
  | append_singleton before c ih =>
    have valid' : ∀ d ∈ before, d.Valid := fun d mem => valid d (by simp [mem])
    rw [batch_concat, step, Book.decidedRun_append]
    exact ⟨ih valid', ⟨_, c, shows_batch book start valid', valid c (by simp), rfl⟩, trivial⟩

theorem split_at_place {α : Type} {xs : List α} {x : α} (found : xs[i]? = some x) :
    ∃ before after, xs = before ++ x :: after ∧ before.length = i := by
  obtain ⟨inside, same⟩ := List.getElem?_eq_some_iff.mp found
  refine ⟨xs.take i, xs.drop (i + 1), ?_, List.length_take_of_le inside.le⟩
  rw [← same, List.cons_getElem_drop_succ, List.take_append_drop]

/-- As long as the sequence does not wrap, records that follow a bank are numbered on. -/
theorem Bank.Extends.numbered {horizon : Nat} {bank : Bank} {rs : List WalRecord}
    (following : bank.Extends horizon rs) (room : bank.sequence.toNat + rs.length < 2 ^ 64)
    {r : WalRecord} (found : rs[i]? = some r) :
    r.sequence.toNat = bank.sequence.toNat + i + 1 := by
  obtain ⟨before, after, rfl, rfl⟩ := split_at_place found
  rw [List.length_append, List.length_cons] at room
  obtain ⟨first, follows, -⟩ := Bank.extends_append.mp following
  have count := first.count (by omega)
  rw [follows.next, UInt64.toNat_add, count, UInt64.toNat_one]
  omega

/-- The bank is what recorded decisions make of an empty one. -/
structure Chronicle (horizon : Nat) (done : List WalRecord) (bank : Bank) : Prop where
  bank_eq : bank = done.foldl (Bank.apply horizon) {}
  following : Bank.Extends horizon {} done
  decided : ({} : Bank).book.DecidedRun done
  room : done.length < 2 ^ 64

namespace Chronicle

variable {horizon : Nat} {done : List WalRecord} {bank : Bank}

theorem empty (horizon : Nat) : Chronicle horizon [] {} := ⟨rfl, trivial, trivial, by decide⟩

theorem count (chronicle : Chronicle horizon done bank) : bank.sequence.toNat = done.length := by
  rw [chronicle.bank_eq, chronicle.following.count (by simpa using chronicle.room)]
  simp

theorem book (chronicle : Chronicle horizon done bank) :
    bank.book = done.foldl Book.apply ({} : Bank).book := by
  rw [chronicle.bank_eq, Bank.foldl_apply]

theorem numbered (chronicle : Chronicle horizon done bank) {r : WalRecord}
    (found : done[i]? = some r) : r.sequence.toNat = i + 1 := by
  rw [chronicle.following.numbered (by simpa using chronicle.room) found]
  simp

theorem batch (chronicle : Chronicle e.bounds.dedupeWindow done e.bank) (below : e.MarksBelow)
    (valid : ∀ c ∈ commands, c.Valid) (room : e.sequence.toNat + commands.length < 2 ^ 64) :
    Chronicle e.bounds.dedupeWindow (done ++ (e.decideBatch commands).records)
      ((e.decideBatch commands).records.foldl (Bank.apply e.bounds.dedupeWindow) e.bank) := by
  have decided := Core.records_decideBatch below valid
  have length := Core.length_records_le below valid
  refine ⟨?_, ?_, ?_, ?_⟩
  · rw [List.foldl_append, ← chronicle.bank_eq]
  · rw [Bank.extends_append, ← chronicle.bank_eq]
    exact ⟨chronicle.following, Core.extends_decideBatch below valid⟩
  · rw [Book.decidedRun_append, ← chronicle.book, decided]
    exact ⟨chronicle.decided, Decisions.decidedRun_batch _ _ fun c mem =>
      valid c (e.executed_subset commands c mem)⟩
  · have count : e.sequence.toNat = done.length := chronicle.count
    rw [List.length_append]
    omega

end Chronicle

/-! ## Answered batches -/

structure Core.Answered (e : Core) (commands : List Command) (results : List Result) (t : Core) :
    Prop where
  valid : ∀ c ∈ commands, c.Valid
  results_eq : results = (e.decideBatch commands).results
  bank : t.bank = (e.decideBatch commands).records.foldl (Bank.apply e.bounds.dedupeWindow) e.bank
  bounds : t.bounds = e.bounds
  sane : t.poisoned = none

theorem Core.answered {e : Core} (below : e.MarksBelow) {commands : List Command}
    {fault : Option AppendFault} {results : List Result}
    (ok : (e.submitBatch commands fault).2 = .ok results) :
    e.Answered commands results (e.submitBatch commands fault).1 := by
  have sane := (opened_of_ok ok).2
  have outcome := submitBatch_spec below commands fault
  generalize e.submitBatch commands fault = p at ok outcome ⊢
  obtain ⟨t, out⟩ := p
  cases outcome with
  | refused => cases ok
  | failed => cases ok
  | empty none =>
    subst none
    cases ok
    exact ⟨by simp, rfl, rfl, rfl, sane⟩
  | repeated takes none =>
    cases ok
    refine ⟨takes.valid, rfl, ?_, bounds_decideBatch below takes.valid, ?_⟩
    · rw [none, bank_repeated below takes.valid none]
      rfl
    · have handle := decideBatch_fields below takes.valid
      exact (congrArg Core.poisoned handle).trans sane
  | committed takes new wal =>
    cases ok
    have handle := sameHandle_committed below takes.valid wal
    exact ⟨takes.valid, rfl, bank_committed below takes.valid wal, handle.bounds,
      handle.poisoned.trans sane⟩

/-- A batch without an answer leaves the engine, or poisons it and leaves the bank up to its
agents. -/
theorem Core.unanswered (below : e.MarksBelow) {fault : Option AppendFault} {err : RuntimeError}
    (error : (e.submitBatch commands fault).2 = .error err) :
    (e.submitBatch commands fault).1 = e ∨
      ((e.submitBatch commands fault).1.poisoned ≠ none ∧ e.poisoned = none ∧
        (∀ c ∈ commands, c.Valid) ∧ ∃ book, Book.Agree Set.univ e.book book ∧
          (e.submitBatch commands fault).1.bank = { e.bank with book := book } ∧
          (e.submitBatch commands fault).1.bounds = e.bounds) := by
  have outcome := submitBatch_spec below commands fault
  generalize e.submitBatch commands fault = p at error outcome ⊢
  obtain ⟨t, out⟩ := p
  cases outcome with
  | refused => exact .inl rfl
  | empty | repeated | committed => cases error
  | failed takes new wal message =>
    have kept := (staging_decideBatch below takes.valid).kept
    rw [book_nextEpoch] at kept
    exact .inr ⟨by simp, takes.sane, takes.valid, _, kept.mono (Set.subset_univ _),
      bank_decideBatch below takes.valid, bounds_decideBatch below takes.valid⟩

/-! ## Recorded runs -/

/-- Runs of allowed operations from an empty directory on, with the records of the decisions that
were made and of those that are in doubt. An engine that keeps a log may be opened again at any
time; the decisions that were in doubt are made if its sequence has moved on. -/
inductive Recorded (cfg : CoreConfig) (allowed : Session → Operation → Prop) :
    Session → List WalRecord → List WalRecord → Prop
  | created {unused : Bytes} {e : Core} (opens : openCore cfg {} unused = .ok e) :
    Recorded cfg allowed ⟨e, {}⟩ [] []
  | answered {s : Session} {done doubt : List WalRecord}
      (before : Recorded cfg allowed s done doubt)
    {commands : List Command} {fault : Option AppendFault}
    (allows : allowed s (.submit commands fault)) {results : List Result}
    (ok : (s.core.submitBatch commands fault).2 = .ok results) :
    Recorded cfg allowed (s.run (.submit commands fault))
      (done ++ (s.core.decideBatch commands).records) doubt
  | refused {s : Session} {done doubt : List WalRecord} (before : Recorded cfg allowed s done doubt)
    {commands : List Command} {fault : Option AppendFault}
    (allows : allowed s (.submit commands fault)) {err : RuntimeError}
    (error : (s.core.submitBatch commands fault).2 = .error err)
    (same : (s.core.submitBatch commands fault).1.poisoned = s.core.poisoned) :
    Recorded cfg allowed (s.run (.submit commands fault)) done doubt
  | failed {s : Session} {done doubt : List WalRecord} (before : Recorded cfg allowed s done doubt)
    {commands : List Command} {fault : Option AppendFault}
    (allows : allowed s (.submit commands fault)) {err : RuntimeError}
    (error : (s.core.submitBatch commands fault).2 = .error err)
    (poisons : (s.core.submitBatch commands fault).1.poisoned ≠ s.core.poisoned) :
    Recorded cfg allowed (s.run (.submit commands fault)) done (s.core.decideBatch commands).records
  | snapshot {s : Session} {done doubt : List WalRecord}
      (before : Recorded cfg allowed s done doubt)
    {fault : Option SnapshotFault} (allows : allowed s (.snapshot fault)) :
    Recorded cfg allowed (s.run (.snapshot fault)) done doubt
  | closed {s : Session} {done doubt : List WalRecord} (before : Recorded cfg allowed s done doubt)
    (allows : allowed s .close) : Recorded cfg allowed (s.run .close) done doubt
  | reopened {s : Session} {done doubt : List WalRecord}
      (before : Recorded cfg allowed s done doubt)
    (durable : cfg.Durable) {unused : Bytes} {e : Core}
    (opens : openCore cfg s.directory unused = .ok e) :
    Recorded cfg allowed ⟨e, s.files⟩
      (if e.sequence = s.core.sequence then done else done ++ doubt) []

/-- The bank of the engine, and the one that its directory holds, are those of the decisions. -/
structure Session.Chronicled (cfg : CoreConfig) (s : Session) (done doubt : List WalRecord) :
    Prop where
  marks : s.core.MarksBelow
  bounds : s.core.bounds = cfg.bounds
  count : s.core.sequence.toNat = done.length
  past : ∃ bank, Chronicle cfg.bounds.dedupeWindow done bank
  sane : s.core.poisoned = none → Chronicle cfg.bounds.dedupeWindow done s.core.bank
  saved : cfg.Durable → ∃ live, s.Durable cfg live ∧
    (Chronicle cfg.bounds.dedupeWindow done live.bank ∨
      Chronicle cfg.bounds.dedupeWindow (done ++ doubt) live.bank)

namespace Session.Chronicled

variable {cfg : CoreConfig} {s : Session} {done doubt : List WalRecord}

theorem of_sane {t : Session} (marks : t.core.MarksBelow) (bounds : t.core.bounds = cfg.bounds)
    (chronicle : Chronicle cfg.bounds.dedupeWindow done t.core.bank)
    (saved : cfg.Durable → ∃ live, t.Durable cfg live ∧ t.core = live) :
    t.Chronicled cfg done doubt := by
  refine ⟨marks, bounds, chronicle.count, ⟨_, chronicle⟩, fun _ => chronicle, fun durable => ?_⟩
  obtain ⟨live, kept, rfl⟩ := saved durable
  exact ⟨_, kept, .inl chronicle⟩

theorem created {unused : Bytes} (opens : openCore cfg {} unused = .ok e) :
    Session.Chronicled cfg ⟨e, {}⟩ [] [] := by
  refine .of_sane (.opened opens) ?_ ?_ fun durable => ?_
  · obtain ⟨wal, rfl⟩ := openCore_new opens
    rfl
  · obtain ⟨wal, rfl⟩ := openCore_new opens
    exact .empty _
  · exact ⟨e, .of_kept (Kept.opened durable (reads_none _) (.empty _ _) (.inl ⟨rfl, rfl⟩)
      (.empty _) rfl opens).2, rfl⟩

theorem answered (h : s.Chronicled cfg done doubt) {commands : List Command}
    {fault : Option AppendFault} (safe : (Operation.submit commands fault).Safe s)
    {results : List Result} (ok : (s.core.submitBatch commands fault).2 = .ok results) :
    (s.run (.submit commands fault)).Chronicled cfg (done ++ (s.core.decideBatch commands).records)
      doubt := by
  have leaves := Core.answered h.marks ok
  have chronicle := h.sane (Core.opened_of_ok ok).2
  rw [← h.bounds] at chronicle
  have chronicle' := chronicle.batch h.marks leaves.valid safe
  rw [← leaves.bank, h.bounds] at chronicle'
  refine .of_sane (h.marks.submitBatch commands fault) (leaves.bounds.trans h.bounds) chronicle' ?_
  intro durable
  obtain ⟨live, kept, -⟩ := h.saved durable
  obtain ⟨next, kept', -⟩ := kept.step safe
  exact ⟨next, kept', kept'.same leaves.sane⟩

theorem refused (h : s.Chronicled cfg done doubt) {commands : List Command}
    {fault : Option AppendFault} {err : RuntimeError}
    (error : (s.core.submitBatch commands fault).2 = .error err)
    (same : (s.core.submitBatch commands fault).1.poisoned = s.core.poisoned) :
    (s.run (.submit commands fault)).Chronicled cfg done doubt := by
  rcases Core.unanswered h.marks error with unchanged | ⟨poisoned, sane, -⟩
  · rw [Session.run, unchanged]
    exact h
  · exact absurd (same.trans sane) poisoned

/-- The directory behind a batch that failed holds the bank before it or behind it. -/
theorem failed (h : s.Chronicled cfg done doubt) {commands : List Command}
    {fault : Option AppendFault} (safe : (Operation.submit commands fault).Safe s)
    {err : RuntimeError} (error : (s.core.submitBatch commands fault).2 = .error err)
    (poisons : (s.core.submitBatch commands fault).1.poisoned ≠ s.core.poisoned) :
    (s.run (.submit commands fault)).Chronicled cfg done (s.core.decideBatch commands).records := by
  rcases Core.unanswered h.marks error with
    unchanged | ⟨poisoned, sane, valid, book, -, bank, bounds⟩
  · exact absurd (congrArg Core.poisoned unchanged) poisons
  have chronicle := h.sane sane
  refine ⟨h.marks.submitBatch commands fault, bounds.trans h.bounds, ?_, h.past,
    fun clean => absurd clean poisoned, fun durable => ?_⟩
  · rw [← h.count]
    exact congrArg (fun b => b.sequence.toNat) bank
  obtain ⟨live, kept, -⟩ := h.saved durable
  obtain ⟨next, kept', -, outcome⟩ := kept.step safe
  refine ⟨next, kept', ?_⟩
  obtain rfl := kept.same sane
  rcases outcome with ⟨old, -⟩ | ⟨_, _, op, -, rfl⟩
  · exact .inl (old ▸ chronicle)
  cases op
  -- The directory holds the batch, which would have been answered without the failure.
  cases answer : (s.core.submitBatch commands none).2 with
  | ok results =>
    have leaves := Core.answered h.marks answer
    rw [← h.bounds] at chronicle
    have chronicle' := chronicle.batch h.marks valid safe
    rw [← leaves.bank, h.bounds] at chronicle'
    exact .inr chronicle'
  | error err =>
    rcases Core.unanswered h.marks answer with unchanged | ⟨poisoned, -⟩
    · exact .inl (unchanged.symm ▸ chronicle)
    · obtain ⟨_, _, _, inStep, -⟩ := kept'.kept
      exact absurd inStep.sane poisoned

theorem snapshot (h : s.Chronicled cfg done doubt) {fault : Option SnapshotFault}
    (safe : (Operation.snapshot fault).Safe s) :
    (s.run (.snapshot fault)).Chronicled cfg done doubt := by
  obtain ⟨wal, core⟩ := s.core_snapshot fault
  have core : (s.run (.snapshot fault)).core = { s.core with wal := wal } := core
  have sane : (s.run (.snapshot fault)).core.poisoned = none := by rw [core]; exact safe.1
  refine .of_sane ?_ ?_ ?_ fun durable => ?_
  · rw [core]; exact h.marks
  · rw [core]; exact h.bounds
  · rw [core]; exact h.sane safe.1
  · obtain ⟨live, kept, -⟩ := h.saved durable
    obtain ⟨next, kept', -⟩ := kept.step safe
    exact ⟨next, kept', kept'.same sane⟩

theorem closed (h : s.Chronicled cfg done doubt) : (s.run .close).Chronicled cfg done doubt := by
  refine ⟨h.marks, h.bounds, h.count, h.past, h.sane, fun durable => ?_⟩
  obtain ⟨live, kept, which⟩ := h.saved durable
  have safe : Operation.close.Safe s := trivial
  obtain ⟨next, kept', -, ⟨bank, -⟩ | ⟨_, _, op, -⟩⟩ := kept.step safe
  · exact ⟨next, kept', bank ▸ which⟩
  · cases op

/-- An engine that is opened again has the bank that its sequence tells. -/
theorem reopened (h : s.Chronicled cfg done doubt) (durable : cfg.Durable) {unused : Bytes}
    {e : Core} (opens : openCore cfg s.directory unused = .ok e) :
    Session.Chronicled cfg ⟨e, s.files⟩
      (if e.sequence = s.core.sequence then done else done ++ doubt) [] := by
  obtain ⟨live, kept, which⟩ := h.saved durable
  obtain ⟨bank, kept'⟩ := kept.reopened durable opens
  obtain ⟨_, _, _, inStep, -⟩ := kept'.kept
  refine .of_sane (.opened opens) inStep.bounds ?_ fun _ => ⟨e, kept', rfl⟩
  rw [← bank] at which
  rcases which with old | new
  · have count : e.sequence.toNat = done.length := old.count
    rw [if_pos (UInt64.toNat_inj.mp (count.trans h.count.symm))]
    exact old
  · have count : e.sequence.toNat = (done ++ doubt).length := new.count
    split
    · rename_i same
      rw [same, h.count, List.length_append] at count
      have none : doubt = [] := List.length_eq_zero_iff.mp (by omega)
      rwa [none, List.append_nil] at new
    · exact new

end Session.Chronicled

theorem Recorded.chronicled {cfg : CoreConfig} {s : Session} {done doubt : List WalRecord}
    (recorded : Recorded cfg Operation.Safe s done doubt) : s.Chronicled cfg done doubt := by
  induction recorded with
  | created opens => exact .created opens
  | answered _ safe ok ih => exact ih.answered safe ok
  | refused _ _ error same ih => exact ih.refused error same
  | failed _ safe error poisons ih => exact ih.failed safe error poisons
  | snapshot _ safe ih => exact ih.snapshot safe
  | closed _ _ ih => exact ih.closed
  | reopened _ durable opens ih => exact ih.reopened durable opens

section Examples

variable {allowed : Session → Operation → Prop}

theorem Recorded.of_answer {cfg : CoreConfig} {s : Session} {done doubt : List WalRecord}
    (before : Recorded cfg allowed s done doubt) (commands : List Command)
    (allows : allowed s (.submit commands none))
    (answers : (s.core.submitBatch commands none).2.toOption.isSome) :
    Recorded cfg allowed (s.run (.submit commands none))
      (done ++ (s.core.decideBatch commands).records) doubt := by
  obtain ⟨results, found⟩ := Option.isSome_iff_exists.mp answers
  exact before.answered allows (toOption_eq_some.mp found)

def createdTwo : List WalRecord :=
  ((Core.created {}).decideBatch
    [{ id := [97], kind := .create, account := 1, amount := 5 },
      { id := [98], kind := .create, account := 2, amount := 5 }]).records

theorem recorded_twoAccounts
    (allows : ∀ commands, commands.length = 2 → allowed ⟨.created {}, {}⟩ (.submit commands none)) :
    Recorded {} allowed twoAccounts createdTwo [] :=
  .of_answer (.created (openCore_empty ⟨rfl, rfl, by decide, by decide⟩ [])) _ (allows _ rfl)
    (by decide +kernel)

end Examples

end OctetDB.Accounts
