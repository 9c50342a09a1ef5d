import OctetDB.Accounts.Decisions
import OctetDB.Accounts.Session
import OctetDB.Errors

/-!
# Balances

Value is created by creating accounts and by deposits and leaves with withdrawals; transfers
move it. Balances are machine integers, so the law holds modulo their width, and a balance stays
non-negative as long as no addition overflows.
-/

namespace OctetDB.Accounts

/-! ## The value of a book -/

/-- What an entry counts for. -/
def Entry.value (entry : Entry) : Int := if entry.present then entry.account.balance.toInt else 0

/-- The sum of the balances of all accounts that exist. -/
noncomputable def Book.total (book : Book) : Int := ∑ id : AccountID, (book.entry id).value

theorem Core.total_book (e : Core) :
    e.book.total = e.table.sum fun row => row.toEntry.value := by
  rw [Table.sum_eq_sum_find, Book.total]
  refine Finset.sum_congr rfl fun id _ => ?_
  rw [Book.entry, Core.book]
  cases e.table.find id with
  | none => simp [Entry.value, Entry.fresh]
  | some row => rfl

theorem WalRecord.value_settle (r : WalRecord) (entry : Entry) :
    (r.settle entry).value = if r.effect = 1 ∨ entry.present ∧ (r.effect = 2 ∨ r.effect = 3)
      then r.newBalanceA.toInt else entry.value := by
  unfold Entry.value WalRecord.settle
  by_cases one : r.effect = 1
  · simp [one, WalRecord.created]
  · by_cases moved : r.effect = 2 ∨ r.effect = 3
    · cases entry.present <;> simp [one, moved, Account.withBalance]
    · by_cases four : r.effect = 4
      · simp [four, Account.withStatus]
      · simp [one, moved, four]

theorem WalRecord.value_receive (r : WalRecord) (entry : Entry) :
    (r.receive entry).value =
      if entry.present ∧ r.effect = 3 then r.newBalanceB.toInt else entry.value := by
  unfold Entry.value WalRecord.receive
  by_cases three : r.effect = 3
  · cases entry.present <;> simp [three, Account.withBalance]
  · simp [three]

namespace Book

variable {F G : Book} {r : WalRecord} {c : Command}

theorem Agree.total {stale : Set AccountID} (agree : Agree stale F G) : F.total = G.total := by
  refine Finset.sum_congr rfl fun id _ => ?_
  rw [Entry.value, Entry.value, agree.account, agree.present]

/-- A record changes the value of its accounts only. -/
theorem total_apply (proper : r.Proper F) :
    (F.apply r).total = F.total + ((r.settle (F.entry r.a)).value - (F.entry r.a).value) +
      if r.effect = 3 then (r.receive (F.entry r.b)).value - (F.entry r.b).value else 0 := by
  have change : (F.apply r).total - F.total =
      ∑ id : AccountID, (((F.apply r).entry id).value - (F.entry id).value) :=
    (Finset.sum_sub_distrib _ _).symm
  have atA : ((F.apply r).entry r.a).value = (r.settle (F.entry r.a)).value := by
    rw [entry_apply, if_pos rfl]
  suffices ∑ id : AccountID, (((F.apply r).entry id).value - (F.entry id).value) =
      ((r.settle (F.entry r.a)).value - (F.entry r.a).value) +
        if r.effect = 3 then (r.receive (F.entry r.b)).value - (F.entry r.b).value else 0 by
    omega
  by_cases three : r.effect = 3
  · obtain ⟨-, other, present⟩ := proper.transfer three
    have atB : ((F.apply r).entry r.b).value = (r.receive (F.entry r.b)).value := by
      rw [entry_apply, if_neg other, if_pos ⟨rfl, by rw [eq_some_of_present present]; rfl⟩]
    rw [if_pos three, ← Finset.sum_subset (Finset.subset_univ {r.a, r.b}), Finset.sum_pair
      (Ne.symm other), atA, atB]
    intro id _ out
    simp only [Finset.mem_insert, Finset.mem_singleton, not_or] at out
    rw [entry_apply, if_neg out.1, if_neg fun h => out.2 h.1, sub_self]
  · rw [if_neg three, add_zero, Fintype.sum_eq_single r.a, atA]
    intro id out
    have kept (entry : Entry) : r.receive entry = entry := if_neg three
    rw [entry_apply, if_neg out, kept, ite_self, sub_self]

end Book

/-! ## What a decision contributes -/

/-- What a command adds to the value if its result says that it was accepted now. -/
def Command.contribution (c : Command) (result : Result) : Int :=
  if result.accepted ∧ result.duplicate = false then
    match c.kind with
    | .create | .deposit => c.amount.toInt
    | .withdraw => -c.amount.toInt
    | _ => 0
  else 0

theorem toInt_add_modEq (a b : Int64) : (a + b).toInt ≡ a.toInt + b.toInt [ZMOD 2 ^ 64] := by
  rw [Int64.toInt_add]
  exact Int.bmod_emod

theorem toInt_sub_modEq (a b : Int64) : (a - b).toInt ≡ a.toInt - b.toInt [ZMOD 2 ^ 64] := by
  rw [Int64.toInt_sub]
  exact Int.bmod_emod

variable {S D : Book} {commands : List Command}

/-- The decision behind the record of a command, in terms of the book that the staged one shows. -/
theorem Book.Shows.decided {c : Command} (shows : Book.Shows S D) (valid : c.Valid)
    (sequence : UInt64) : (S.decide sequence c).Proper D ∧
      ∃ d, Decided c (D.entry c.account).account (D.entry c.account).present
          (D.peer c.other).account (D.peer c.other).present d ∧
        (S.decide sequence c).accepted = d.accepted ∧ (S.decide sequence c).effect = d.effect ∧
        (S.decide sequence c).newBalanceA = d.balanceA ∧
        (S.decide sequence c).newBalanceB = d.balanceB := by
  refine ⟨shows.agree.proper (Book.decideWith_proper valid _ _), ?_⟩
  have spec := S.decideWith_spec (S.entry c.account).agent sequence c
  rw [shows.agree.account, shows.agree.present, (shows.agree.peer_account c.other).1,
    (shows.agree.peer_account c.other).2] at spec
  exact spec

/-- The record of a decision changes the value by what the command contributes. -/
theorem Book.total_decided {c : Command} (shows : Book.Shows S D) (valid : c.Valid)
    (sequence : UInt64) : (D.apply (S.decide sequence c)).total ≡
      D.total + c.contribution (S.decide sequence c).result [ZMOD 2 ^ 64] := by
  obtain ⟨proper, d, decided, accepted, effect, balanceA, balanceB⟩ := shows.decided valid sequence
  have a : (S.decide sequence c).a = c.account := rfl
  have b : (S.decide sequence c).b = c.other := rfl
  have result : ((S.decide sequence c).result.accepted ∧
      (S.decide sequence c).result.duplicate = false) ↔ d.accepted := by
    rw [← accepted]
    exact and_iff_left rfl
  generalize S.decide sequence c = r at *
  rw [total_apply proper, a, b, Command.contribution, if_congr result rfl rfl, add_assoc,
    WalRecord.value_settle, WalRecord.value_receive, effect, balanceA, balanceB]
  refine Int.ModEq.add_left _ ?_
  cases decided with
  | kept taken reason passive =>
    cases taken with
    | false => simp [unchanged]
    | true => rcases passive rfl with kind | kind <;> simp [unchanged, kind]
  | created kind absent => simp [kind, Entry.value, absent]
  | deposited kind known =>
    have moved := (toInt_add_modEq (D.entry c.account).account.balance c.amount).sub_right
      (D.entry c.account).account.balance.toInt
    rw [add_sub_cancel_left] at moved
    simpa [Entry.value, kind, known, -Int64.toInt_add] using moved
  | withdrew kind known =>
    have moved := (toInt_sub_modEq (D.entry c.account).account.balance c.amount).sub_right
      (D.entry c.account).account.balance.toInt
    rw [sub_sub_cancel_left] at moved
    simpa [Entry.value, kind, known, -Int64.toInt_sub] using moved
  | transferred kind known peer =>
    obtain ⟨nonzero, -⟩ := valid.other_ne kind
    rw [peer_of_ne nonzero] at peer ⊢
    have out := (toInt_sub_modEq (D.entry c.account).account.balance c.amount).sub_right
      (D.entry c.account).account.balance.toInt
    have into := (toInt_add_modEq (D.entry c.other).account.balance c.amount).sub_right
      (D.entry c.other).account.balance.toInt
    rw [sub_sub_cancel_left] at out
    rw [add_sub_cancel_left] at into
    have moved := out.add into
    rw [neg_add_cancel] at moved
    rcases kind with kind | kind <;>
      simpa [Entry.value, kind, known, peer, -Int64.toInt_sub, -Int64.toInt_add] using moved
  | marked kind known status => rcases kind with kind | kind <;> simp [kind, known]

/-- The records of a batch change the value by what its commands contribute. -/
theorem Decisions.total_batch (book : Book) (start : UInt64) (valid : ∀ c ∈ commands, c.Valid) :
    ((batch book start commands).records.foldl Book.apply book).total ≡ book.total +
      ((commands.zip ((batch book start commands).records.map WalRecord.result)).map
        fun p => p.1.contribution p.2).sum [ZMOD 2 ^ 64] := by
  induction commands using List.reverseRecOn with
  | nil => simp [batch, run]
  | append_singleton before c ih =>
    have valid' : ∀ d ∈ before, d.Valid := fun d mem => valid d (by simp [mem])
    have length : before.length =
        ((batch book start before).records.map WalRecord.result).length := by
      rw [List.length_map, batch, length_run]
    have last := Book.total_decided (shows_batch book start valid') (valid c (by simp))
      (start + UInt64.ofNat (batch book start before).records.length + 1)
    rw [batch_concat, step, List.foldl_append, List.map_append, List.zip_append length,
      List.map_append, List.sum_append, ← add_assoc]
    refine last.trans (((ih valid').add_right _).trans ?_)
    simp

/-! ## Runs of batches -/

/-- Runs of allowed batches on a new engine, with the commands that were answered and their
results. -/
inductive Batches (cfg : CoreConfig) (allowed : Core → List Command → Prop) :
    Core → List (Command × Result) → Prop
  | start {unused : Bytes} {e : Core} (opens : openCore cfg {} unused = .ok e) :
    Batches cfg allowed e []
  | answered {e : Core} {done : List (Command × Result)} (before : Batches cfg allowed e done)
    {commands : List Command} (allows : allowed e commands) {fault : Option AppendFault}
    {results : List Result} (ok : (e.submitBatch commands fault).2 = .ok results) :
    Batches cfg allowed (e.submitBatch commands fault).1 (done ++ commands.zip results)
  | failed {e : Core} {done : List (Command × Result)} (before : Batches cfg allowed e done)
    {commands : List Command} (allows : allowed e commands) {fault : Option AppendFault}
    {err : RuntimeError} (error : (e.submitBatch commands fault).2 = .error err) :
    Batches cfg allowed (e.submitBatch commands fault).1 done

namespace Batches

variable {cfg : CoreConfig} {allowed : Core → List Command → Prop} {e : Core}
  {done : List (Command × Result)}

theorem reachable (batches : Batches cfg allowed e done) : e.Reachable := by
  induction batches with
  | start opens => exact .opened opens
  | answered _ _ _ ih => exact .submitted ih _ _
  | failed _ _ _ ih => exact .submitted ih _ _

end Batches

/-- What a batch does to the accounts: nothing, or what its records say. -/
theorem Core.book_submitBatch {e : Core} (below : e.MarksBelow) (commands : List Command)
    (fault : Option AppendFault) :
    (Book.Agree Set.univ e.book (e.submitBatch commands fault).1.book ∧
      ∀ results, (e.submitBatch commands fault).2 = .ok results →
        (commands.zip results).filter (fun p => !p.2.duplicate) = []) ∨
    ((∀ c ∈ e.executed commands, c.Valid) ∧ (e.submitBatch commands fault).1.book =
        (Decisions.batch e.book e.sequence (e.executed commands)).records.foldl Book.apply e.book ∧
      ∃ results, (e.submitBatch commands fault).2 = .ok results ∧
        (commands.zip results).filter (fun p => !p.2.duplicate) = (e.executed commands).zip
          ((Decisions.batch e.book e.sequence (e.executed commands)).records.map
            WalRecord.result)) := by
  have outcome := submitBatch_spec below commands fault
  generalize e.submitBatch commands fault = p at outcome ⊢
  obtain ⟨t, out⟩ := p
  cases outcome with
  | refused => exact .inl ⟨.refl _ _, by simp⟩
  | empty none =>
    subst none
    exact .inl ⟨.refl _ _, by simp⟩
  | repeated takes none =>
    have results := results_decideBatch below takes.valid
    have same : (e.decideBatch commands).core.book = e.book :=
      congrArg Bank.book (bank_repeated below takes.valid none)
    refine .inl ⟨same ▸ .refl _ _, fun _ ok => ?_⟩
    cases ok
    rw [results, none]
    simp
  | failed takes =>
    have kept := (staging_decideBatch below takes.valid).kept
    rw [book_nextEpoch] at kept
    exact .inl ⟨kept.mono (Set.subset_univ _), by simp⟩
  | committed takes new wal =>
    have records := records_decideBatch below takes.valid
    refine .inr ⟨fun c mem => takes.valid c (e.executed_subset commands c mem), ?_, _, rfl, ?_⟩
    · rw [← records]
      exact book_committed below takes.valid wal
    · rw [← records]
      exact results_decideBatch below takes.valid

theorem sum_map_filter {α : Type} {p : α → Bool} {f : α → Int} (zero : ∀ x, p x = false → f x = 0)
    (xs : List α) : ((xs.filter p).map f).sum = (xs.map f).sum := by
  induction xs with
  | nil => rfl
  | cons x xs ih =>
    cases h : p x
    · simp [h, ih, zero x h]
    · simp [h, ih]

theorem add_nonneg_of_lt {a b : Int64} (ha : 0 ≤ a) (hb : 0 ≤ b)
    (fits : a.toInt + b.toInt < 2 ^ 63) : 0 ≤ a + b := by
  rw [Int64.le_iff_toInt_le, Int64.toInt_zero] at *
  rw [Int64.toInt_add, Int.bmod_eq_of_le (by omega) (by omega)]
  omega

theorem sub_nonneg_of_le {a b : Int64} (hb : 0 ≤ b) (le : b ≤ a) : 0 ≤ a - b := by
  have upper := a.toInt_lt
  rw [Int64.le_iff_toInt_le] at *
  rw [Int64.toInt_zero] at *
  rw [Int64.toInt_sub, Int.bmod_eq_of_le (by omega) (by omega)]
  omega

namespace Book

def Solvent (book : Book) : Prop :=
  ∀ id, (book.entry id).present = true → 0 ≤ (book.entry id).account.balance

/-- The balance that an accepted command adds to can carry its amount. -/
def Carries (book : Book) (c : Command) : Prop :=
  (book.decide 0 c).accepted = true →
    (c.kind = .deposit → (book.entry c.account).account.balance.toInt + c.amount.toInt < 2 ^ 63) ∧
    (c.kind = .transfer ∨ c.kind = .confirm →
      (book.entry c.other).account.balance.toInt + c.amount.toInt < 2 ^ 63)

theorem Agree.solvent {F G : Book} {stale : Set AccountID} (agree : Agree stale F G)
    (solvent : F.Solvent) : G.Solvent := by
  intro id present
  rw [← agree.present] at present
  rw [← agree.account]
  exact solvent id present

theorem solvent_decided {c : Command} (shows : Book.Shows S D) (valid : c.Valid) (sequence : UInt64)
    (solvent : D.Solvent) (carries : S.Carries c) :
    (D.apply (S.decide sequence c)).Solvent := by
  obtain ⟨proper, d, decided, accepted, effect, balanceA, balanceB⟩ := shows.decided valid sequence
  have a : (S.decide sequence c).a = c.account := rfl
  have b : (S.decide sequence c).b = c.other := rfl
  have same : (S.decide 0 c).accepted = (S.decide sequence c).accepted := rfl
  rw [Carries, same, accepted, shows.agree.account, shows.agree.account] at carries
  generalize S.decide sequence c = r at *
  have settled : (r.settle (D.entry c.account)).present = true →
      0 ≤ (r.settle (D.entry c.account)).account.balance := by
    unfold WalRecord.settle
    rw [effect, balanceA]
    cases decided with
    | kept => simpa [unchanged] using solvent c.account
    | created kind absent amount =>
      intro _
      simpa [WalRecord.created, balanceA] using amount
    | deposited kind known amount =>
      intro _
      have room := (carries rfl).1 kind
      simpa [Account.withBalance] using
        add_nonneg_of_lt (solvent c.account known) (by grind) room
    | withdrew kind known amount funded =>
      intro _
      simpa [Account.withBalance] using sub_nonneg_of_le (by grind) funded
    | transferred kind known peer amount funded =>
      intro _
      simpa [Account.withBalance] using sub_nonneg_of_le (by grind) funded
    | marked kind known status =>
      intro _
      simpa [Account.withStatus] using solvent c.account known
  have received : r.effect = 3 → 0 ≤ r.newBalanceB := by
    rw [effect, balanceB]
    cases decided with
    | transferred kind known peer amount funded =>
      intro _
      obtain ⟨nonzero, -⟩ := valid.other_ne kind
      rw [peer_of_ne nonzero] at peer ⊢
      exact add_nonneg_of_lt (solvent c.other peer) (by grind) ((carries rfl).2 kind)
    | _ => simp [unchanged]
  intro id present
  rw [entry_apply, a, b] at present ⊢
  by_cases first : id = c.account
  · subst first
    rw [if_pos rfl] at present ⊢
    exact settled present
  · rw [if_neg first] at present ⊢
    by_cases second : id = c.other ∧ (D id).isSome
    · rw [if_pos second] at present ⊢
      unfold WalRecord.receive at present ⊢
      split <;> rename_i three
      · exact received three
      · rw [if_neg three] at present
        exact solvent id present
    · rw [if_neg second] at present ⊢
      exact solvent id present

end Book

/-- In a batch every balance that an accepted command adds to can carry its amount. -/
def Core.Carries (e : Core) (commands : List Command) : Prop :=
  ∀ before c after, e.executed commands = before ++ c :: after →
    (Decisions.batch e.book e.sequence before).book.Carries c

theorem Decisions.solvent_batch {book : Book} {start : UInt64} (valid : ∀ c ∈ commands, c.Valid)
    (solvent : book.Solvent) (carries : ∀ before c after, commands = before ++ c :: after →
      (batch book start before).book.Carries c) :
    ((batch book start commands).records.foldl Book.apply book).Solvent := by
  induction commands using List.reverseRecOn with
  | nil => exact solvent
  | append_singleton before c ih =>
    have valid' : ∀ d ∈ before, d.Valid := fun d mem => valid d (by simp [mem])
    have first := ih valid' fun p d q split => carries p d (q ++ [c]) (by simp [split])
    rw [batch_concat, step, List.foldl_append]
    exact Book.solvent_decided (shows_batch book start valid') (valid c (by simp)) _ first
      (carries before c [] rfl)

theorem Core.solvent_submitBatch {e : Core} (below : e.MarksBelow) (carries : e.Carries commands)
    (solvent : e.book.Solvent) (fault : Option AppendFault) :
    (e.submitBatch commands fault).1.book.Solvent := by
  rcases book_submitBatch below commands fault with ⟨same, -⟩ | ⟨valid, book, -⟩
  · exact same.solvent solvent
  · rw [book]
    exact Decisions.solvent_batch valid solvent carries

theorem Batches.solvent {cfg : CoreConfig} {e : Core} {done : List (Command × Result)}
    (batches : Batches cfg Core.Carries e done) : e.book.Solvent := by
  induction batches with
  | start opens =>
    obtain ⟨wal, rfl⟩ := openCore_new opens
    intro id present
    simp [Book.entry, Core.book, Entry.fresh] at present
  | answered before carries _ ih | failed before carries _ ih =>
    exact Core.solvent_submitBatch before.reachable.marksBelow carries ih _

/-- If in every batch the balances that accepted commands add to can carry the amounts, every
account that exists has a non-negative balance. -/
theorem balances_nonneg (cfg : CoreConfig) (e : Core) (done : List (Command × Result))
    (batches : Batches cfg Core.Carries e done) (id : AccountID) (row : Row)
    (found : e.table.find id = some row) (present : row.present = true) :
    0 ≤ row.account.balance := by
  have entry : e.book.entry id = row.toEntry := by rw [Book.entry, Core.book, found]; rfl
  have nonneg := batches.solvent id
  rw [entry] at nonneg
  exact nonneg present

/-- Two accounts are created and four of the first one's ten go to the second one. -/
def paidCommands : List Command :=
  [{ id := [97], kind := .create, account := 1, amount := 10 },
    { id := [98], kind := .create, account := 2, amount := 5 },
    { id := [99], kind := .transfer, account := 1, other := 2, amount := 4 }]

theorem balances_nonneg_paid :
    ∃ row, ((Core.created {}).submitBatch paidCommands none).1.table.find 1 = some row ∧
      row.present = true ∧ row.account.balance = 6 ∧ 0 ≤ row.account.balance := by
  have carries : (Core.created {}).Carries paidCommands := by
    intro before c after split
    have whole : (Core.created {}).executed paidCommands = paidCommands := rfl
    rw [whole, paidCommands] at split
    unfold Book.Carries
    rcases before with _ | ⟨_, _ | ⟨_, _ | ⟨_, before⟩⟩⟩
    · cases split
      decide +kernel
    · cases split
      decide +kernel
    · cases split
      decide +kernel
    · simp at split
  have three : (((Core.created {}).submitBatch paidCommands none).2.toOption.map List.length) =
      some 3 := by decide +kernel
  obtain ⟨results, answered, -⟩ := Option.map_eq_some_iff.mp three
  have batches : Batches {} Core.Carries ((Core.created {}).submitBatch paidCommands none).1 _ :=
    .answered (.start (openCore_empty ⟨rfl, rfl, by decide, by decide⟩ [])) carries
      (toOption_eq_some.mp answered)
  have shown : (((Core.created {}).submitBatch paidCommands none).1.table.find 1).map
      (fun row => (row.present, row.account.balance)) = some (true, 6) := by decide +kernel
  obtain ⟨row, found, is⟩ := Option.map_eq_some_iff.mp shown
  obtain ⟨present, balance⟩ := Prod.mk.inj is
  exact ⟨row, found, present, balance, balances_nonneg {} _ _ batches 1 row found present⟩

/-! ## Commands of the product -/

/-- The kinds of commands that the product API has, with their numbers. -/
def commandKinds : List (UInt8 × CommandKind) :=
  [(1, .create), (2, .deposit), (3, .withdraw), (4, .transfer), (5, .freeze), (6, .unfreeze),
    (7, .beginTransfer), (8, .confirm), (9, .cancel)]

structure DBCommand where
  id : Bytes
  kind : UInt8
  accountID : UInt64
  otherAccountID : UInt64 := 0
  amount : Int64 := 0
  deriving DecidableEq, Repr

def invalidInput (message : String) : Error := ⟨.invalidInput, "submit", message⟩

/-- The command of the engine for one of the product. The bounds of the amount are those of the
platform's integers, which have 64 bits. -/
def convertCommand (command : DBCommand) : Except Error Command :=
  if command.id = [] ∨ command.accountID = 0 then
    .error (invalidInput "command ID and AccountID are required")
  else if command.amount > Int64.maxValue ∨ command.amount < -Int64.maxValue - 1 then
    .error (invalidInput "amount is outside the platform integer range")
  else
    match commandKinds.lookup command.kind with
    | none => .error (invalidInput "unknown command kind")
    | some kind =>
      .ok ⟨command.id, kind, command.accountID, command.otherAccountID, command.amount⟩

/-- A deposit of one into an account with the greatest balance. -/
theorem balance_overflows :
    let create : DBCommand :=
      { id := [97], kind := 1, accountID := 1, amount := 9223372036854775807 }
    let deposit : DBCommand := { id := [98], kind := 2, accountID := 1, amount := 1 }
    ∃ commands, [create, deposit].mapM convertCommand = .ok commands ∧
      (∀ c ∈ commands, c.Valid) ∧ openCore {} {} [] = .ok (.created {}) ∧
      (((Core.created {}).submitBatch commands none).1.table.find 1).map
          (fun row => (row.present, row.account.balance)) =
        some (true, -9223372036854775808) :=
  ⟨[{ id := [97], kind := .create, account := 1, amount := 9223372036854775807 },
      { id := [98], kind := .deposit, account := 1, amount := 1 }], by decide +kernel,
    by decide +kernel, openCore_empty ⟨rfl, rfl, by decide, by decide⟩ [], by decide +kernel⟩

end OctetDB.Accounts
