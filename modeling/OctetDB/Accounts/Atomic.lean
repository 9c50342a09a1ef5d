import OctetDB.Accounts.Decisions
import OctetDB.Accounts.Session

/-!
# A batch as a whole

A batch is decided before the size of its frame is known. A batch that the checks refuse leaves
no trace, while one whose frame is too large poisons the engine after it has written slots and
agents. What the decisions read of staged accounts is what the records before them would have
left, and the scratch columns catch up with the accounts when the batch is applied.
-/

namespace OctetDB.Accounts

/-! ## Refused batches -/

namespace Core

variable {e : Core} {commands : List Command}

/-- The frame of a batch that the engine takes and logs is within the limit. -/
def Framed (e : Core) (commands : List Command) : Prop :=
  e.Takes commands → e.wal.isSome →
    frameSize (e.executed commands) ≤ maxWALFrameBytes

/-- A batch whose frame is too large poisons the engine. -/
theorem submitBatch_oversized (below : e.MarksBelow) (takes : e.Takes commands)
    (durable : e.wal.isSome) (large : maxWALFrameBytes < frameSize (e.executed commands)) :
    ∃ err, (e.submitBatch commands none).2 = .error err ∧
      (e.submitBatch commands none).1.poisoned ≠ none := by
  have length := length_walPayload_decideBatch below takes.valid
  obtain ⟨file, wal⟩ := Option.isSome_iff_exists.mp durable
  have outcome := submitBatch_spec below commands none
  generalize e.submitBatch commands none = p at outcome ⊢
  obtain ⟨t, out⟩ := p
  cases outcome with
  | refused not => exact absurd takes not
  | empty none => exact absurd none takes.nonempty
  | repeated _ none =>
    rw [none] at length
    have : 4 ≤ maxWALFrameBytes := by decide
    simp only [walPayload, List.length_nil, List.flatMap_nil, List.append_nil, length_putUint32]
      at length
    omega
  | failed => exact ⟨_, rfl, Option.some_ne_none _⟩
  | committed _ _ wal' append =>
    rw [wal, appendBatch, if_pos (by omega)] at append
    cases append

/-- Without a failure of the operating system, a batch that is answered with an error leaves the
engine as it was exactly if its frame is within the limit. -/
theorem refused_unchanged_iff (e : Core) (reachable : e.Reachable) (commands : List Command) :
    (∀ err, (e.submitBatch commands none).2 = .error err → (e.submitBatch commands none).1 = e) ↔
      e.Framed commands := by
  have below := reachable.marksBelow
  constructor
  · intro unchanged takes durable
    by_contra large
    obtain ⟨err, error, poisoned⟩ := submitBatch_oversized below takes durable (not_le.mp large)
    rw [unchanged err error] at poisoned
    exact poisoned takes.sane
  · intro framed err error
    have outcome := submitBatch_spec below commands none
    generalize e.submitBatch commands none = p at error outcome ⊢
    obtain ⟨t, out⟩ := p
    cases outcome with
    | refused => rfl
    | empty | repeated | committed => cases error
    | failed takes new wal message append =>
      cases file : e.wal with
      | none => simp [file, appendBatch] at append
      | some log =>
        have fits := framed takes (by simp [file])
        rw [← length_walPayload_decideBatch below takes.valid] at fits
        rw [file, appendBatch, if_neg (not_lt.mpr fits)] at append
        cases append

/-- One command with an ID as long as a frame is refused, and so is everything after it. -/
theorem oversized_batch_poisons : ∃ c : Command, (created {}).Reachable ∧ c.Valid ∧
    (∃ err, ((created {}).submitBatch [c] none).2 = .error err) ∧
    ∀ later, ∃ err, (((created {}).submitBatch [c] none).1.submitBatch later none).2 =
      .error err := by
  have reachable : (created {}).Reachable :=
    .opened (openCore_empty ⟨rfl, rfl, by decide, by decide⟩ [])
  obtain ⟨id, long⟩ : ∃ id : Bytes, id.length = maxWALFrameBytes :=
    ⟨List.replicate _ 97, List.length_replicate⟩
  have named : id ≠ [] := by
    rintro rfl
    cases long
  let c : Command := { id := id, kind := .deposit, account := 1, amount := 1 }
  have valid : c.Valid := by simp [c, Command.Valid, validateCommand, named]
  have takes : (created {}).Takes [c] := by
    refine ⟨rfl, rfl, by simp, (by decide : 1 ≤ 512), by simpa using valid, ?_⟩
    have none : (created {}).newAccounts [c] = ∅ := by simp [newAccounts, c]
    rw [none]
    decide
  have all : (created {}).executed [c] = [c] := executed_eq_self (by simp [created]) (by simp)
  obtain ⟨err, error, poisoned⟩ := submitBatch_oversized reachable.marksBelow takes rfl (by
    simp only [all, frameSize, List.map_singleton, List.sum_singleton, c, long]
    omega)
  refine ⟨c, reachable, valid, ⟨err, error⟩, fun later => ?_⟩
  obtain ⟨message, found⟩ := Option.ne_none_iff_exists'.mp poisoned
  generalize ((created {}).submitBatch [c] none).1 = t at found ⊢
  unfold submitBatch
  cases t.closed <;> simp [found]

/-- A command without an account. -/
theorem refused_unchanged_deposit :
    let c : Command := { id := [97], kind := .deposit, account := 0 }
    (∃ err, ((created {}).submitBatch [c] none).2 = .error err) ∧
      ((created {}).submitBatch [c] none).1 = created {} := by
  intro c
  have invalid : ¬ (created {}).Takes [c] := fun takes =>
    absurd (takes.valid c (by simp)) (by decide)
  obtain ⟨err, error⟩ : ∃ err, failure ((created {}).submitBatch [c] none).2 = some err :=
    Option.isSome_iff_exists.mp (by decide +kernel)
  rw [failure_eq_some] at error
  refine ⟨⟨err, error⟩, ?_⟩
  exact (refused_unchanged_iff (created {}) (.opened (openCore_empty ⟨rfl, rfl, by decide,
    by decide⟩ [])) [c]).mpr (fun takes => absurd takes invalid) err error

/-! ## Staged reads -/

/-- What a command reads of the account in a slot. -/
def reading (e : Core) (slot : Option Nat) : Int64 × Int64 × UInt64 × Bool :=
  ((e.accountFor slot).balance, (e.accountFor slot).status, (e.accountFor slot).version,
    e.existsIn slot)

end Core

/-- What there is to read of an entry. -/
def Entry.reading (entry : Entry) : Int64 × Int64 × UInt64 × Bool :=
  (entry.account.balance, entry.account.status, entry.account.version, entry.present)

theorem Book.peer_congr {F G : Book} (same : F.entry = G.entry) (id : AccountID) :
    F.peer id = G.peer id := by
  rw [Book.peer, Book.peer, same]

theorem Book.Shows.reading {S D : Book} (shows : Book.Shows S D) (id : AccountID) :
    (S.entry id).reading = (D.entry id).reading ∧ (S.peer id).reading = (D.peer id).reading := by
  obtain ⟨account, present⟩ := shows.agree.peer_account id
  simp only [Entry.reading, shows.agree.account, shows.agree.present, account, present, and_self]

namespace Core

variable {e : Core} {commands : List Command}

theorem reading_slot (e : Core) (id : AccountID) :
    e.reading (e.table.slot id) = (e.staged.entry id).reading := by
  obtain ⟨x, account⟩ := e.accountFor_slot_eq id
  simp only [reading, Entry.reading, account, existsIn_slot]

theorem reading_otherSlot (e : Core) (id : AccountID) :
    e.reading (e.otherSlot id) = (e.staged.peer id).reading := by
  by_cases zero : id = 0
  · simp [otherSlot, zero, Book.peer, reading, Entry.reading, accountFor, existsIn, Entry.fresh]
  · rw [otherSlot_of_ne e zero, Book.peer_of_ne zero, reading_slot]

theorem book_foldl_applyDurable {rs : List WalRecord} (run : e.book.ProperRun rs) :
    (rs.foldl applyDurable e).book = rs.foldl Book.apply e.book := by
  have bank := bank_foldl_applyDurable run
  rw [Bank.foldl_apply] at bank
  exact congrArg Bank.book bank

/-- The command behind `before` reads what the records before it leave. -/
theorem reading_decideBatch (below : e.MarksBelow) {before : List Command}
    (valid : ∀ c ∈ before, c.Valid) (c : Command) :
    let s := e.decideBatch before
    let applied := s.records.foldl applyDurable e
    (s.slotted c).reading ((s.slotted c).table.slot c.account) =
        (applied.book.entry c.account).reading ∧
      (s.slotted c).reading ((s.slotted c).otherSlot c.other) =
        (applied.book.peer c.other).reading := by
  intro s applied
  have staging := staging_decideBatch below valid
  have entries : (s.slotted c).staged.entry = s.core.staged.entry := s.core.entry_staged_slot _ _
  have shown := staging.shown
  have run := staging.run
  rw [book_nextEpoch] at shown run
  rw [reading_slot, reading_otherSlot, entries, Book.peer_congr entries,
    show applied.book = _ from book_foldl_applyDurable run]
  exact ⟨(shown.reading c.account).1, (shown.reading c.other).2⟩

/-- Records leave the scratch columns and the marks. -/
theorem rowOf_foldl_applyDurable {rs : List WalRecord} (run : e.book.ProperRun rs)
    (id : AccountID) :
    ((rs.foldl applyDurable e).rowOf id).scratch = (e.rowOf id).scratch ∧
      ((rs.foldl applyDurable e).rowOf id).mark = (e.rowOf id).mark ∧
      (rs.foldl applyDurable e).epoch = e.epoch := by
  induction rs generalizing e with
  | nil => exact ⟨rfl, rfl, rfl⟩
  | cons r rs ih =>
    obtain ⟨proper, run⟩ := run
    rw [← book_applyDurable proper] at run
    obtain ⟨scratch, mark, epoch⟩ := ih run
    have kept : ((e.applyDurable r).rowOf id).scratch = (e.rowOf id).scratch ∧
        ((e.applyDurable r).rowOf id).mark = (e.rowOf id).mark := by
      rw [rowOf, find_applyDurable proper]
      split
      · exact ⟨rfl, rfl⟩
      · rw [rowOf]
        split <;> cases e.table.find id <;> exact ⟨rfl, rfl⟩
    refine ⟨scratch.trans kept.1, mark.trans kept.2, epoch.trans ?_⟩
    rw [applyDurable_eq proper.rejected]

/-- After a batch that is answered, marked rows have caught up with their scratch columns. -/
theorem scratch_of_answered (below : e.MarksBelow) (takes : e.Takes commands)
    {fault : Option AppendFault} {results : List Result}
    (ok : (e.submitBatch commands fault).2 = .ok results) {id : AccountID} {row : Row}
    (found : (e.submitBatch commands fault).1.table.find id = some row)
    (marked : (e.submitBatch commands fault).1.Marked row) : row.scratch = row.account := by
  have staging := staging_decideBatch below takes.valid
  have run := staging.kept.properRun staging.run
  have shown := staging.shown.agree.account id
  rw [book_nextEpoch] at shown
  have outcome := submitBatch_spec below commands fault
  generalize e.submitBatch commands fault = p at ok outcome found marked
  obtain ⟨t, out⟩ := p
  -- A row that is marked behind the records was marked before them.
  have caught (u : Core) (epoch : u.epoch = t.epoch)
      (staged : u.staged = (e.decideBatch commands).core.staged)
      (scratch : (t.rowOf id).scratch = (u.rowOf id).scratch)
      (mark : (t.rowOf id).mark = (u.rowOf id).mark)
      (book : t.book = (e.decideBatch commands).records.foldl Book.apply e.book) :
      row.scratch = row.account := by
    have here : t.rowOf id = row := by rw [rowOf, found]; rfl
    rw [here] at scratch mark
    have account : (t.book.entry id).account = row.account := by rw [entry_book, here]
    rw [← account, book, ← shown, ← staged, scratch, Book.entry, Core.staged]
    cases known : u.table.find id with
    | none =>
      rw [rowOf, known] at mark
      exact absurd (marked.2.symm.trans mark) marked.1
    | some old =>
      rw [rowOf, known, Option.getD_some] at mark ⊢
      have old : u.Marked old := ⟨epoch ▸ marked.1, by rw [← mark, marked.2, epoch]⟩
      rw [Option.map_some, Option.getD_some, stagedEntry, if_pos old]
  cases outcome with
  | refused | failed => cases ok
  | empty none => exact absurd none takes.nonempty
  | repeated _ none =>
    refine caught _ rfl rfl rfl rfl ?_
    rw [none]
    exact congrArg Bank.book (bank_repeated below takes.valid none)
  | committed _ _ wal =>
    obtain ⟨scratch, mark, epoch⟩ := rowOf_foldl_applyDurable
      (e := { (e.decideBatch commands).core with wal := wal }) run id
    exact caught _ epoch.symm rfl scratch mark (book_committed below takes.valid wal)

end Core

end OctetDB.Accounts
