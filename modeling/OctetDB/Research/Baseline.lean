import OctetDB.Accounts.Serial
import OctetDB.Research.Log

/-!
# The baseline engine

The baseline engine executes one command at a time on maps: the accounts, the pending transfer
of every account and the results. It has neither slots nor staging nor a window. The account
engine, given the same commands one at a time, gives the same answers and ends with the same
accounts, pending transfers and ledger.
-/

namespace OctetDB.Research

open Accounts

structure GoEngine where
  store : Store := {}
  results : ByteMap Result := ∅
  pending : WordMap PendingTransfer := ∅
  sequence : UInt64 := 0

/-- Why a command has no result: it is not valid, or the log did not take its record. -/
inductive ExecuteError where
  | invalid (err : RuntimeError)
  | log (message : String)

/-- The checkpoint of a pending transfer. -/
def marshalPending (p : PendingTransfer) : Bytes :=
  (Json.obj [(ascii "active", .bool p.active), (ascii "target", .num (Json.decimal p.target.toNat)),
    (ascii "amount", encodeInt p.amount)]).render

namespace GoEngine

/-- Executes a command. The log takes a record or says why it does not; a log in memory takes
every record. -/
def execute (append : LogRecord → Option String) (e : GoEngine) (c : Command) :
    GoEngine × Except ExecuteError Result :=
  match validateCommand c with
  | .error err => (e, .error (.invalid err))
  | .ok () =>
    match e.results[c.id]? with
    | some prior => (e, .ok { prior with duplicate := true })
    | none =>
      let v := e.store.view c.account c.other
      let pending := e.pending.getD c.account {}
      let d := decideGo c v.a v.aok v.b v.bok pending
      let next := pending.next c d
      let sequence := e.sequence + 1
      let record := decisionRecord { version := 1, sequence := sequence } c v d 0
        (marshalPending next)
      match append record with
      | some message => ({ e with sequence := sequence }, .error (.log message))
      | none =>
        ({ store := e.store.apply record
           results := e.results.insert c.id record.result
           pending := e.pending.insert c.account next
           sequence := sequence }, .ok record.result)

/-- Executes commands one by one until one fails. -/
def executeEach (append : LogRecord → Option String) (e : GoEngine) :
    List Command → GoEngine × Except ExecuteError (List Result)
  | [] => (e, .ok [])
  | c :: commands =>
    match e.execute append c with
    | (t, .error err) => (t, .error err)
    | (t, .ok result) =>
      match t.executeEach append commands with
      | (u, .error err) => (u, .error err)
      | (u, .ok results) => (u, .ok (result :: results))

end GoEngine

/-! ## The baseline engine and a bank -/

/-- What the engines agree on in a result. -/
def brief (r : Result) : UInt64 × Bytes × Bool × Int64 × Int64 :=
  (r.sequence, r.commandID, r.accepted, r.reasonTag, r.effectTag)

/-- The engine holds the accounts, the pending transfers, the ledger and the sequence of a bank.
An account that is not present may have an entry in the bank, which the engine does not show. -/
structure GoEngine.Simulates (g : GoEngine) (bank : Bank) : Prop where
  accounts : g.store.Shows bank.book
  bare : Bare bank.book
  pending : ∀ id, g.pending.getD id {} = (bank.book.entry id).agent.pending
  ledger : g.store.ledger = bank.ledger
  sequence : g.sequence = bank.sequence

namespace GoEngine.Simulates

variable {g : GoEngine} {bank : Bank} {c : Command}

theorem empty : Simulates {} {} where
  accounts := fun id => by simp [Book.entry, Entry.fresh]
  bare := .empty
  pending := fun id => by simp [Book.entry, Entry.fresh]
  ledger := rfl
  sequence := rfl

/-- A new command is decided like on the bank, unless the log does not take its record. -/
theorem execute (sim : g.Simulates bank) (valid : c.Valid) (fresh : c.id ∉ g.results)
    (append : LogRecord → Option String) (horizon : Nat) :
    (∃ t result, g.execute append c = (t, .ok result) ∧
      brief result = brief (bank.book.decide (bank.sequence + 1) c).result ∧
      t.Simulates (bank.apply horizon (bank.book.decide (bank.sequence + 1) c)) ∧
      ∀ id, id ∈ t.results ↔ id = c.id ∨ id ∈ g.results) ∨
    ∃ record message t, append record = some message ∧
      g.execute append c = (t, .error (.log message)) := by
  have unknown : g.results[c.id]? = none := by
    rw [← Option.not_isSome_iff_eq_none, ← Std.ExtTreeMap.mem_iff_isSome_getElem?]
    exact fresh
  have decision := sim.accounts.decideGo_view sim.bare c (bank.book.entry c.account).agent.pending
  have proper : (bank.book.decide (bank.sequence + 1) c).Proper bank.book :=
    Book.decideWith_proper valid _ _
  unfold GoEngine.execute
  rw [show validateCommand c = .ok () from valid]
  simp only [unknown, sim.pending, sim.sequence, decision]
  cases taken : append _ with
  | some message => exact .inr ⟨_, message, _, taken, rfl⟩
  | none =>
    refine .inl ⟨_, _, rfl, rfl, ?_, fun id => ?_⟩
    · obtain ⟨accounts, ledger⟩ := sim.accounts.apply
        (l := decisionRecord { version := 1, sequence := bank.sequence + 1 } c _ _ 0 _)
        (r := bank.book.decide (bank.sequence + 1) c)
        ⟨rfl, rfl, rfl, rfl, rfl, rfl, rfl, rfl⟩ proper
      refine ⟨accounts, sim.bare.apply proper valid.account_ne, fun id => ?_, ?_, rfl⟩
      · rw [Std.ExtTreeMap.getD_insert, Bank.apply, Book.entry_apply]
        by_cases here : id = c.account
        · simp [here, WalRecord.settle]
          rfl
        · have receive (e : Entry) : ((bank.book.decide (bank.sequence + 1) c).receive e).agent =
              e.agent := by
            unfold WalRecord.receive
            split <;> rfl
          simp only [Std.LawfulEqCmp.compare_eq_iff_eq, Ne.symm here, if_false, sim.pending,
            Book.decide_a, here]
          split <;> simp [receive]
      · rw [ledger, sim.ledger]
        rfl
    · rw [Std.ExtTreeMap.mem_insert, Std.LawfulEqCmp.compare_eq_iff_eq, eq_comm]

/-- The bank that serial decisions leave, and the next decision on it. -/
theorem serial_next (horizon : Nat) (bank : Bank) (before : List Command) (c : Command) :
    let after := (Decisions.serial bank.book bank.sequence before).records.foldl
      (Bank.apply horizon) bank
    let next := after.book.decide (after.sequence + 1) c
    (Decisions.serial bank.book bank.sequence (before ++ [c])).records =
      (Decisions.serial bank.book bank.sequence before).records ++ [next] := by
  intro after next
  have book : after.book = (Decisions.serial bank.book bank.sequence before).book := by
    rw [show after = _ from Bank.foldl_apply _ _ _, Decisions.book_serial]
  have sequence : after.sequence = bank.sequence + UInt64.ofNat before.length := by
    rw [show after = _ from Bank.foldl_apply _ _ _]
    exact Decisions.sequence_run _ bank.book bank.sequence before
  rw [Decisions.serial_concat, Decisions.step]
  simp only [next, book, sequence, Decisions.serial, Decisions.length_run]

/-- Commands with new IDs are decided like serially on the bank, as long as the log takes their
records. -/
theorem executeEach (append : LogRecord → Option String) (horizon : Nat) (bank : Bank)
    (before : List Command) {after : List Command}
    (sim : g.Simulates ((Decisions.serial bank.book bank.sequence before).records.foldl
      (Bank.apply horizon) bank))
    (valid : ∀ c ∈ after, c.Valid) (fresh : ∀ c ∈ after, c.id ∉ g.results)
    (distinct : (after.map (·.id)).Nodup) :
    (∃ t results, g.executeEach append after = (t, .ok results) ∧
      (Decisions.serial bank.book bank.sequence (before ++ after)).records.map
          (fun r => brief r.result) =
        (Decisions.serial bank.book bank.sequence before).records.map (fun r => brief r.result) ++
          results.map brief ∧
      t.Simulates ((Decisions.serial bank.book bank.sequence (before ++ after)).records.foldl
        (Bank.apply horizon) bank)) ∨
    ∃ record message t, append record = some message ∧
      g.executeEach append after = (t, .error (.log message)) := by
  induction after generalizing g before with
  | nil => exact .inl ⟨g, [], rfl, by simp, by simpa using sim⟩
  | cons c after ih =>
    rw [List.forall_mem_cons] at valid fresh
    rw [List.map_cons, List.nodup_cons] at distinct
    have next := serial_next horizon bank before c
    have assoc : before ++ c :: after = (before ++ [c]) ++ after := by simp
    rcases sim.execute valid.1 fresh.1 append horizon with
      ⟨t, result, answers, same, sim', known⟩ | ⟨record, message, t, refused, answers⟩
    · have fresh' : ∀ d ∈ after, d.id ∉ t.results := by
        intro d mem seen
        rcases (known d.id).mp seen with here | old
        · exact distinct.1 (here ▸ List.mem_map_of_mem mem)
        · exact fresh.2 d mem old
      have sim'' : t.Simulates
          ((Decisions.serial bank.book bank.sequence (before ++ [c])).records.foldl
          (Bank.apply horizon) bank) := by
        rw [next, List.foldl_append]
        exact sim'
      rw [assoc]
      rcases ih (before ++ [c]) sim'' valid.2 fresh' distinct.2 with
        ⟨u, results, rest, briefs, last⟩ | ⟨record, message, u, refused, rest⟩
      · refine .inl ⟨u, result :: results, ?_, ?_, last⟩
        · simp only [GoEngine.executeEach, answers, rest]
        · rw [briefs, next]
          simp [same]
      · exact .inr ⟨record, message, u, refused, by simp only [GoEngine.executeEach, answers, rest]⟩
    · exact .inr ⟨record, message, t, refused, by simp only [GoEngine.executeEach, answers]⟩

end GoEngine.Simulates

/-! ## The account engine and the baseline engine -/

/-- The engines show the same accounts, pending transfers and ledger. -/
structure SameState (e : Core) (g : GoEngine) : Prop where
  accounts : ∀ id, g.store.accounts[id]? =
    if (e.book.entry id).present then some (e.book.entry id).account else none
  pending : ∀ id, g.pending.getD id {} = (e.book.entry id).agent.pending
  ledger : g.store.ledger = e.ledger

/-- What a new account engine starts with. -/
structure Fresh (cfg : CoreConfig) (e : Core) : Prop where
  marks : e.MarksBelow
  opened : e.closed = false
  sane : e.poisoned = none
  bounds : e.bounds = cfg.bounds
  bank : e.bank = {}
  memory : cfg.durability = .memoryOnly → e.wal = none

theorem Fresh.of_open {cfg : CoreConfig} {unused : Bytes} {e : Core}
    (opens : openCore cfg {} unused = .ok e) : Fresh cfg e := by
  have marks := Core.MarksBelow.opened opens
  obtain ⟨wal, new⟩ := openCore_new opens
  refine ⟨marks, by rw [new], by rw [new], by rw [new], by rw [new]; rfl, fun memory => ?_⟩
  obtain ⟨-, -, opens⟩ := bind_ok.mp opens
  obtain ⟨-, -, opens⟩ := bind_ok.mp opens
  obtain ⟨t, -, opens⟩ := bind_ok.mp opens
  obtain ⟨⟨wal, records⟩, log, opens⟩ := bind_ok.mp opens
  obtain ⟨u, replays, opens⟩ := bind_ok.mp opens
  obtain ⟨-, -, opens⟩ := bind_ok.mp opens
  obtain rfl := Except.ok.inj opens
  rw [mapError_ok, openWAL, if_pos memory] at log
  cases log
  rw [← foldlM_nil_ok.mp replays]

/-- A new engine has room for each command if it has room for all accounts. -/
theorem Fresh.roomFor {cfg : CoreConfig} {e : Core} (new : Fresh cfg e)
    {commands p q : List Command} {c : Command}
    (capacity : (commands.map (·.account)).toFinset.card ≤ cfg.bounds.maxAccounts)
    (split : commands = p ++ c :: q) : e.RoomFor p c := by
  have unused (id : AccountID) : e.table.find id = none := by
    rw [← Option.not_isSome_iff_eq_none, ← Core.isSome_book,
      show e.book = e.bank.book from rfl, new.bank]
    simp
  have size : e.table.size ≤ (Table.empty : Table Row).size + (∅ : Finset AccountID).card :=
    Table.size_le_add_card (by simp [unused])
  have slots : e.newSlots p = (p.map (·.account)).toFinset := by
    ext id
    rw [Core.mem_newSlots, List.mem_toFinset]
    simp [unused]
  rw [Core.RoomFor, slots, new.bounds]
  have none : e.table.size = 0 := Nat.le_zero.mp size
  refine le_trans ?_ capacity
  rw [none, split, List.map_append, List.map_cons, List.toFinset_append,
    List.toFinset_cons, zero_add]
  split_ifs with first
  · have new : c.account ∉ (p.map (·.account)).toFinset := by simpa using first.2.2
    rw [← Finset.card_insert_of_notMem new, Finset.union_insert]
    exact Finset.card_le_card (Finset.insert_subset_insert _ Finset.subset_union_left)
  · rw [add_zero]
    exact Finset.card_le_card Finset.subset_union_left

end OctetDB.Research
