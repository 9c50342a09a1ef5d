import OctetDB.Accounts.Decisions
import OctetDB.Accounts.Session

/-!
# A batch against its commands one by one

A batch reads the accounts that its earlier commands left, but not the agent that they left
with an account without a slot: the agent is only kept when the records are applied. So the
batch decides like its commands submitted one by one unless a second command meets such an
agent. Submitted one by one, the commands also meet the account capacity at other moments, and
their records are not together in one frame.
-/

namespace OctetDB.Accounts

/-! ## The decisions -/

theorem Book.isSome_stage (book : Book) (sequence : UInt64) (c : Command) (id : AccountID) :
    (book.stage c (book.decide sequence c) id).isSome ↔
      (book id).isSome ∨ c.account = id ∧ c.kind = .create := by
  unfold Book.stage
  split <;> rename_i kept
  · rw [Book.isSome_apply]
    simp only [Book.decide_a]
    grind
  · grind

namespace Decisions

variable {book : Book} {start : UInt64}

/-- The staged book knows an account from the start or from its creation on. -/
theorem isSome_batch (before : List Command) (id : AccountID) :
    ((batch book start before).book id).isSome ↔
      (book id).isSome ∨ ∃ c ∈ before, c.account = id ∧ c.kind = .create := by
  induction before using List.reverseRecOn with
  | nil => simp [batch, run]
  | append_singleton before c ih =>
    rw [batch_concat, step, Book.isSome_stage, ih]
    grind

/-- The book of serial decisions knows every account that a command was for. -/
theorem isSome_serial (before : List Command) (id : AccountID) :
    ((serial book start before).book id).isSome ↔
      (book id).isSome ∨ ∃ c ∈ before, c.account = id := by
  induction before using List.reverseRecOn with
  | nil => simp [serial, run]
  | append_singleton before c ih =>
    rw [serial_concat, step, Book.isSome_apply, ih, Book.decide_a]
    grind

/-- The staged book shows the accounts that serial decisions with the same records leave. -/
theorem shows_serial {before : List Command} (valid : ∀ c ∈ before, c.Valid)
    (same : (batch book start before).records = (serial book start before).records) :
    Book.Shows (batch book start before).book (serial book start before).book := by
  rw [book_serial, ← same]
  exact shows_batch book start valid

/-- An account without an entry has a single command, or its first one is to create it. -/
def Regular (book : Book) (commands : List Command) : Prop :=
  ∀ id, book id = none → ∀ first second rest,
    commands.filter (·.account = id) = first :: second :: rest → first.kind = .create

theorem Regular.of_concat {before : List Command} {c : Command}
    (regular : Regular book (before ++ [c])) : Regular book before := by
  intro id unused first second rest split
  refine regular id unused first second (rest ++ [c].filter (·.account = id)) ?_
  rw [List.filter_append, split]
  rfl

/-- A batch of regular commands is decided like its commands one by one. -/
theorem records_eq_of_regular {commands : List Command} (valid : ∀ c ∈ commands, c.Valid)
    (regular : Regular book commands) :
    (batch book start commands).records = (serial book start commands).records := by
  induction commands using List.reverseRecOn with
  | nil => rfl
  | append_singleton before c ih =>
    have valid' : ∀ d ∈ before, d.Valid := fun d mem => valid d (by simp [mem])
    have records := ih valid' regular.of_concat
    have shows := shows_serial valid' records
    -- The two books differ in agents only, and the next command meets the same agent in both.
    have agent : (batch book start before).book.entry c.account =
        (serial book start before).book.entry c.account := by
      by_cases known : ((batch book start before).book c.account).isSome
      · rw [Book.entry, Book.entry, shows.used _ known]
      · have unknown : ¬ ((serial book start before).book c.account).isSome := by
          rw [isSome_batch, not_or] at known
          rw [isSome_serial, not_or]
          refine ⟨known.1, ?_⟩
          rintro ⟨d, mem, same⟩
          cases earlier : before.filter (·.account = c.account) with
          | nil =>
            have := List.filter_eq_nil_iff.mp earlier d mem
            simp [same] at this
          | cons first rest =>
            have more : ∃ second rest',
                (before ++ [c]).filter (·.account = c.account) = first :: second :: rest' := by
              rw [List.filter_append, earlier]
              cases rest with
              | nil => exact ⟨c, [], by simp⟩
              | cons second rest => exact ⟨second, rest ++ [c], by simp⟩
            obtain ⟨second, rest', split⟩ := more
            have create := regular c.account (by simpa using known.1) _ _ _ split
            have member : first ∈ before.filter (·.account = c.account) := by simp [earlier]
            obtain ⟨mem, account⟩ := List.mem_filter.mp member
            exact known.2 ⟨first, mem, by simpa using account, create⟩
        simp only [Option.not_isSome_iff_eq_none] at known unknown
        rw [Book.entry, Book.entry, known, unknown]
    rw [batch_concat, serial_concat, step, step, records, Book.decide, Book.decide, agent,
      shows.agree.decideWith]

/-- Decisions on other accounts leave the agent of an account. -/
theorem agent_serial_append (before : List Command) {after : List Command} {id : AccountID}
    (other : ∀ c ∈ after, c.account ≠ id) :
    ((serial book start (before ++ after)).book.entry id).agent =
      ((serial book start before).book.entry id).agent := by
  induction after using List.reverseRecOn with
  | nil => rw [List.append_nil]
  | append_singleton after c ih =>
    have keep (r : WalRecord) (entry : Entry) : (r.receive entry).agent = entry.agent := by
      unfold WalRecord.receive
      split <;> rfl
    rw [← List.append_assoc, serial_concat, step, Book.entry_apply, Book.decide_a,
      if_neg (Ne.symm (other c (by simp))),
      ← ih fun d mem => other d (by simp [mem])]
    split
    · exact keep _ _
    · rfl

/-- If the turns of the records agree, the commands are regular. -/
theorem regular_of_turns {commands : List Command}
    (same : (batch book start commands).records.map (·.turns) =
      (serial book start commands).records.map (·.turns)) : Regular book commands := by
  intro id unused first second rest split
  by_contra other
  obtain ⟨l₁, l₂, rfl, none₁, account₁, split⟩ := List.filter_eq_cons_iff.mp split
  obtain ⟨l₃, l₄, rfl, none₃, account₂, -⟩ := List.filter_eq_cons_iff.mp split
  simp only [decide_eq_true_eq] at account₁ account₂ none₁ none₃
  have cut : l₁ ++ first :: (l₃ ++ second :: l₄) = (l₁ ++ first :: l₃) ++ second :: l₄ := by simp
  -- The batch meets no agent at the second command.
  have staged : (batch book start (l₁ ++ first :: l₃)).book id = none := by
    rw [← Option.not_isSome_iff_eq_none, isSome_batch, not_or]
    refine ⟨by simp [unused], ?_⟩
    rintro ⟨c, mem, account, kind⟩
    rcases List.mem_append.mp mem with early | late
    · exact none₁ c early account
    rcases List.mem_cons.mp late with rfl | late
    · exact other kind
    · exact none₃ c late account
  -- One by one, it meets the agent that the first command left.
  have serialFirst : ((serial book start (l₁ ++ first :: l₃)).book.entry id).agent.turns = 1 := by
    have before : (serial book start l₁).book id = none := by
      rw [← Option.not_isSome_iff_eq_none, isSome_serial, not_or]
      exact ⟨by simp [unused], fun ⟨c, mem, account⟩ => none₁ c mem account⟩
    have append : l₁ ++ first :: l₃ = (l₁ ++ [first]) ++ l₃ := by simp
    rw [append, agent_serial_append _ none₃, serial_concat, step, Book.entry_apply, Book.decide_a,
      if_pos account₁.symm]
    change ((serial book start l₁).book.entry first.account).agent.turns + 1 = 1
    rw [account₁, Book.entry, before]
    rfl
  have batchTurns := getElem?_run Book.stage book start (l₁ ++ first :: l₃) second l₄
  have serialTurns := getElem?_run (fun book _ r => book.apply r) book start (l₁ ++ first :: l₃)
    second l₄
  have at_second := congrArg (·[(l₁ ++ first :: l₃).length]?) same
  simp only [List.getElem?_map, cut] at at_second
  rw [show (batch book start _).records[_]? = _ from batchTurns,
    show (serial book start _).records[_]? = _ from serialTurns] at at_second
  have turns : ((batch book start (l₁ ++ first :: l₃)).book.entry second.account).agent.turns + 1 =
      ((serial book start (l₁ ++ first :: l₃)).book.entry second.account).agent.turns + 1 :=
    Option.some.inj at_second
  rw [account₂, serialFirst, Book.entry, staged] at turns
  exact absurd (show (0 : Int64) + 1 = 1 + 1 from turns) (by decide)

end Decisions

/-! ## The engine one command at a time -/

/-- Submits commands one by one until one fails. -/
def Core.submitEach (e : Core) : List Command → Core × Except RuntimeError (List Result)
  | [] => (e, .ok [])
  | c :: commands =>
    match e.submit c none with
    | (t, .error err) => (t, .error err)
    | (t, .ok result) =>
      match t.submitEach commands with
      | (u, .error err) => (u, .error err)
      | (u, .ok results) => (u, .ok (result :: results))

/-- An append without a failure of the operating system fails if the frame is too large. -/
theorem appendBatch_none (wal : Option WalFile) (records : List WalRecord) :
    (appendBatch wal records none).2 = none ↔
      wal = none ∨ (walPayload records).length ≤ maxWALFrameBytes := by
  cases wal with
  | none => simp [appendBatch]
  | some file =>
    simp only [appendBatch, reduceCtorEq, false_or]
    split <;> simp_all

theorem appendBatch_isSome (wal : Option WalFile) (records : List WalRecord)
    (fault : Option AppendFault) : (appendBatch wal records fault).1.isSome = wal.isSome := by
  cases wal with
  | none => rfl
  | some file =>
    simp only [appendBatch]
    split
    · rfl
    · split <;> rfl

/-- The engine after commands that were submitted one by one. -/
structure Serially (e : Core) (before : List Command) (t : Core) : Prop where
  marks : t.MarksBelow
  opened : t.closed = false
  sane : t.poisoned = none
  bounds : t.bounds = e.bounds
  durable : t.wal.isSome = e.wal.isSome
  bank : t.bank = (Decisions.serial e.book e.sequence before).records.foldl
    (Bank.apply e.bounds.dedupeWindow) e.bank

namespace Serially

variable {e t : Core} {before : List Command} {c : Command}

theorem book (serially : Serially e before t) :
    t.book = (Decisions.serial e.book e.sequence before).book := by
  have := congrArg Bank.book serially.bank
  rw [Bank.foldl_apply] at this
  exact this.trans (Decisions.book_serial _ _ _).symm

theorem sequence (serially : Serially e before t) :
    t.sequence = e.sequence + UInt64.ofNat before.length := by
  have same := congrArg Bank.sequence serially.bank
  rw [Bank.foldl_apply] at same
  exact same.trans (Decisions.sequence_run _ e.book e.sequence before)

/-- The retained results are those from before and those of the commands. -/
theorem retained (serially : Serially e before t) {id : Bytes} (mem : id ∈ t.retained.results) :
    id ∈ e.retained.results ∨ id ∈ before.map (·.id) := by
  have same := congrArg Bank.window serially.bank
  rw [Bank.foldl_apply] at same
  replace mem : id ∈ t.retained.window.dedupe := mem
  rw [show t.retained.window = _ from same] at mem
  have ids : (Decisions.serial e.book e.sequence before).records.map (·.commandID) =
      before.map (·.id) := Decisions.map_run _ _ _ _ fun _ _ _ => rfl
  rw [← ids]
  exact Window.mem_foldl_retain mem

theorem known (serially : Serially e before t) (id : AccountID) :
    (t.table.find id).isSome = true ↔
      (e.table.find id).isSome = true ∨ id ∈ before.map (·.account) := by
  rw [← Core.isSome_book, serially.book, Decisions.isSome_serial, Core.isSome_book]
  simp [List.mem_map]

theorem size (serially : Serially e before t) :
    t.table.size = e.table.size + (e.newSlots before).card := by
  apply Table.size_add_card
  · intro id
    rw [serially.known, Core.mem_newSlots]
    cases e.table.find id <;> simp
  · intro id mem
    exact (Core.mem_newSlots.mp mem).2

end Serially

/-- There is room for a command after others were submitted one by one. -/
def Core.RoomFor (e : Core) (before : List Command) (c : Command) : Prop :=
  e.table.size + (e.newSlots before).card +
    (if c.kind = .create ∧ e.table.slot c.account = none ∧ c.account ∉ before.map (·.account)
      then 1 else 0) ≤ e.bounds.maxAccounts

instance (e : Core) (before : List Command) (c : Command) : Decidable (e.RoomFor before c) :=
  inferInstanceAs (Decidable (_ ≤ _))

theorem Core.card_newAccounts_single (e : Core) (c : Command) : (e.newAccounts [c]).card =
    if c.kind = .create ∧ e.table.slot c.account = none then 1 else 0 := by
  unfold Core.newAccounts
  by_cases create : c.kind = .create
  · by_cases slotless : e.table.slot c.account = none
    · simp [create, slotless, Finset.filter_singleton]
    · simp [create, slotless, Finset.filter_singleton]
  · simp [create]

namespace Serially

variable {e t : Core} {before : List Command} {c : Command}

theorem room (serially : Serially e before t) :
    t.table.size + (t.newAccounts [c]).card ≤ t.bounds.maxAccounts ↔ e.RoomFor before c := by
  have slotless : t.table.slot c.account = none ↔
      e.table.slot c.account = none ∧ c.account ∉ before.map (·.account) := by
    rw [Core.slot_eq_none, Core.slot_eq_none, ← Option.not_isSome_iff_eq_none,
      ← Option.not_isSome_iff_eq_none, Core.isSome_book, Core.isSome_book, serially.known, not_or]
  rw [Core.card_newAccounts_single, serially.size, serially.bounds, Core.RoomFor]
  simp only [slotless]

/-- A command that finds room, and whose frame fits, is decided like the next serial one. -/
theorem submit (serially : Serially e before t) (valid : c.Valid)
    (fresh : c.id ∉ e.retained.results) (new : c.id ∉ before.map (·.id)) :
    (e.RoomFor before c ∧ (e.wal = none ∨ frameSize [c] ≤ maxWALFrameBytes) ∧
      (t.submit c none).2 = .ok ((Decisions.serial e.book e.sequence before).book.decide
        (e.sequence + UInt64.ofNat before.length + 1) c).result ∧
      Serially e (before ++ [c]) (t.submit c none).1) ∨
    (¬ (e.RoomFor before c ∧ (e.wal = none ∨ frameSize [c] ≤ maxWALFrameBytes)) ∧
      ∃ err, (t.submit c none).2 = .error err) := by
  have unretained : c.id ∉ t.retained.results := fun mem =>
    (serially.retained mem).elim fresh new
  have validAll : ∀ d ∈ [c], d.Valid := by simpa using valid
  have all : t.executed [c] = [c] := Core.executed_eq_self (by simpa using unretained) (by simp)
  have records : (t.decideBatch [c]).records =
      [(Decisions.serial e.book e.sequence before).book.decide
        (e.sequence + UInt64.ofNat before.length + 1) c] := by
    rw [Core.records_decideBatch serially.marks validAll, all, serially.book, serially.sequence]
    simp [Decisions.batch, Decisions.run, Decisions.step]
  have results := Core.results_of_executed serially.marks validAll all
  rw [records] at results
  have size : (walPayload (t.decideBatch [c]).records).length = frameSize [c] := by
    rw [Core.length_walPayload_decideBatch serially.marks validAll, all]
  have log : t.wal = none ↔ e.wal = none := by
    rw [← Option.not_isSome_iff_eq_none, serially.durable, Option.not_isSome_iff_eq_none]
  have appends := appendBatch_none t.wal (t.decideBatch [c]).records
  rw [size, log] at appends
  have outcome := Core.submitBatch_spec serially.marks [c] none
  have marks := serially.marks.submitBatch [c] none
  unfold Core.submit
  rw [← serially.room, ← appends]
  generalize t.submitBatch [c] none = p at outcome marks ⊢
  obtain ⟨u, result⟩ := p
  cases outcome with
  | refused not err =>
    refine .inr ⟨fun room => not ?_, err, rfl⟩
    exact ⟨serially.opened, serially.sane, by simp, Bounds.batch_pos _, validAll, room.1⟩
  | empty none => cases none
  | repeated takes none => rw [records] at none; cases none
  | failed takes some wal message append =>
    refine .inr ⟨fun room => ?_, _, rfl⟩
    rw [append] at room
    cases room.2
  | committed takes some wal append =>
    have handle := Core.sameHandle_committed serially.marks validAll wal
    refine .inl ⟨takes.capacity, by rw [append], by rw [results]; rfl, marks, ?_, ?_, ?_, ?_, ?_⟩
    · exact handle.closed.trans serially.opened
    · exact handle.poisoned.trans serially.sane
    · exact handle.bounds.trans serially.bounds
    · have kept := appendBatch_isSome t.wal (t.decideBatch [c]).records none
      rw [append] at kept
      rw [handle.wal, ← serially.durable]
      exact kept
    · rw [Core.bank_committed serially.marks validAll, serially.bounds, serially.bank, records,
        Decisions.serial_concat, Decisions.step, List.foldl_append]
      simp [Decisions.serial, Decisions.length_run]

/-- Every command finds room and has a frame that fits. -/
def Fits (e : Core) (before after : List Command) : Prop :=
  ∀ p c q, after = p ++ c :: q →
    e.RoomFor (before ++ p) c ∧ (e.wal = none ∨ frameSize [c] ≤ maxWALFrameBytes)

theorem fits_cons {after : List Command} : Fits e before (c :: after) ↔
    (e.RoomFor before c ∧ (e.wal = none ∨ frameSize [c] ≤ maxWALFrameBytes)) ∧
      Fits e (before ++ [c]) after := by
  constructor
  · intro fits
    refine ⟨by simpa using fits [] c after rfl, fun p d q split => ?_⟩
    simpa using fits (c :: p) d q (by simp [split])
  · rintro ⟨first, later⟩ p d q split
    cases p with
    | nil =>
      obtain ⟨rfl, rfl⟩ := List.cons_eq_cons.mp split
      simpa using first
    | cons x p =>
      obtain ⟨rfl, rfl⟩ := List.cons_eq_cons.mp split
      simpa using later p d q rfl

/-- The commands are all decided one by one if every one fits, and else one of them fails. -/
theorem submitEach {after : List Command} (serially : Serially e before t)
    (valid : ∀ c ∈ after, c.Valid) (fresh : ∀ c ∈ after, c.id ∉ e.retained.results)
    (distinct : ((before ++ after).map (·.id)).Nodup) :
    (Fits e before after ∧ Serially e (before ++ after) (t.submitEach after).1 ∧
      ∃ results, (t.submitEach after).2 = .ok results ∧
        (Decisions.serial e.book e.sequence (before ++ after)).records.map WalRecord.result =
          (Decisions.serial e.book e.sequence before).records.map WalRecord.result ++ results) ∨
    (¬ Fits e before after ∧ ∃ err, (t.submitEach after).2 = .error err) := by
  induction after generalizing before t with
  | nil =>
    refine .inl ⟨fun p c q split => ?_, by simpa [Core.submitEach] using serially, [], rfl, by simp⟩
    simp at split
  | cons c after ih =>
    obtain ⟨first, valid⟩ := List.forall_mem_cons.mp valid
    obtain ⟨firstFresh, fresh⟩ := List.forall_mem_cons.mp fresh
    have new : c.id ∉ before.map (·.id) := by
      rw [List.map_append, List.nodup_append] at distinct
      exact fun mem => distinct.2.2 c.id mem c.id (by simp) rfl
    have assoc : before ++ c :: after = before ++ [c] ++ after := by simp
    rw [fits_cons]
    simp only [Core.submitEach]
    rcases serially.submit first firstFresh new with
      ⟨room, frame, result, next⟩ | ⟨unfit, err, failed⟩
    · generalize t.submit c none = u at result next ⊢
      obtain ⟨u, outcome⟩ := u
      subst result
      dsimp only
      rw [assoc] at distinct
      rcases ih next valid fresh distinct with
        ⟨fits, last, results, ok, append⟩ | ⟨unfit, err, failed⟩
      · left
        generalize u.submitEach after = v at last ok ⊢
        obtain ⟨v, outcome⟩ := v
        subst ok
        refine ⟨⟨⟨room, frame⟩, fits⟩, assoc ▸ last, _, rfl, ?_⟩
        rw [assoc, append, Decisions.serial_concat, Decisions.step]
        simp [Decisions.serial, Decisions.length_run]
      · right
        generalize u.submitEach after = v at failed ⊢
        obtain ⟨v, outcome⟩ := v
        subst failed
        exact ⟨fun fits => unfit fits.2, err, rfl⟩
    · right
      generalize t.submit c none = u at failed ⊢
      obtain ⟨u, outcome⟩ := u
      subst failed
      exact ⟨fun fits => unfit fits.1, err, rfl⟩

end Serially

/-! ## The batch -/

/-- The frame of each command fits if the frame of the batch does. -/
theorem frameSize_le {commands : List Command} {c : Command} (mem : c ∈ commands) :
    frameSize [c] ≤ frameSize commands := by
  have le := List.single_le_sum (l := commands.map fun c => 125 + c.id.length)
    (fun _ _ => Nat.zero_le _) _ (List.mem_map_of_mem mem)
  simp only [frameSize, List.map_cons, List.map_nil, List.sum_cons, List.sum_nil]
  omega

section Batch

variable {e : Core} {commands : List Command}

/-- What a batch of new commands does when the engine takes commands: it is committed with the
results of its records, or its frame does not fit. -/
theorem Core.submitBatch_new (below : e.MarksBelow) (opened : e.closed = false)
    (sane : e.poisoned = none) (valid : ∀ c ∈ commands, c.Valid)
    (all : e.executed commands = commands) (length_le : commands.length ≤ e.bounds.batchMax)
    (capacity : e.table.size + (e.newAccounts commands).card ≤ e.bounds.maxAccounts) :
    ((e.wal = none ∨ frameSize commands ≤ maxWALFrameBytes) ∧
      (e.submitBatch commands none).2 = .ok
        ((Decisions.batch e.book e.sequence commands).records.map WalRecord.result) ∧
      (e.submitBatch commands none).1.bank =
        (Decisions.batch e.book e.sequence commands).records.foldl
          (Bank.apply e.bounds.dedupeWindow) e.bank) ∨
    (¬ (e.wal = none ∨ frameSize commands ≤ maxWALFrameBytes) ∧
      ∃ err, (e.submitBatch commands none).2 = .error err) := by
  have records := records_decideBatch below valid
  rw [all] at records
  have results := results_of_executed below valid all
  have appends := appendBatch_none e.wal (e.decideBatch commands).records
  rw [length_walPayload_decideBatch below valid, all] at appends
  rw [← appends]
  by_cases none : commands = []
  · subst none
    have same : e.submitBatch [] none = (e, .ok []) := by simp [submitBatch, opened, sane]
    rw [same]
    exact .inl ⟨appends.mpr (.inr (by decide)), rfl, rfl⟩
  have takes : e.Takes commands := ⟨opened, sane, none, length_le, valid, capacity⟩
  have outcome := submitBatch_spec below commands Option.none
  generalize e.submitBatch commands Option.none = p at outcome ⊢
  obtain ⟨t, result⟩ := p
  cases outcome with
  | refused not => exact absurd takes not
  | empty none => exact absurd none takes.nonempty
  | repeated _ none =>
    have size := congrArg List.length records
    rw [none, Decisions.batch, Decisions.length_run] at size
    exact absurd (List.length_eq_zero_iff.mp size.symm) takes.nonempty
  | failed _ _ wal message append =>
    refine .inr ⟨fun fits => ?_, _, rfl⟩
    rw [append] at fits
    cases fits
  | committed _ _ wal append =>
    refine .inl ⟨by rw [append], by rw [results, records], ?_⟩
    rw [← records]
    exact bank_committed below valid wal

end Batch

end OctetDB.Accounts
