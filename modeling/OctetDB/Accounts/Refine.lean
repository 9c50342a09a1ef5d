import OctetDB.Accounts.Bank

/-!
# The engine is a bank

The engine's authoritative columns make its bank. During a batch the marked rows and their
scratch columns make another book, the staged one, on which the commands of the batch are
decided.
-/

namespace OctetDB.Accounts

/-! ## Retained results -/

def Retained.window (m : Retained) : Window Result := ⟨m.results, m.order.drop m.orderHead⟩

theorem Retained.window_compact (m : Retained) (window : Nat) :
    (m.compact window).window = m.window := by
  unfold compact
  split <;> simp [Retained.window]

theorem Retained.window_remember (m : Retained) (horizon : Nat) (id : Bytes) (result : Result) :
    (m.remember horizon id result).window = m.window.retain horizon id result := by
  have head_le := m.head_le
  have shown : (m.order ++ [id]).drop m.orderHead = m.order.drop m.orderHead ++ [id] :=
    List.drop_append_of_le_length head_le
  have length : (m.order.drop m.orderHead ++ [id]).length =
      (m.order ++ [id]).length - m.orderHead := by
    rw [← shown, List.length_drop]
  have oldest : (m.order.drop m.orderHead ++ [id]).head? =
      some ((m.order ++ [id]).getD m.orderHead []) := by
    rw [← shown, List.head?_drop, List.getD_eq_getElem?_getD,
      List.getElem?_eq_getElem (by simp; omega), Option.getD_some]
  simp only [remember, Retained.window_compact, Window.retain]
  rw [show m.window.dedupeIDs = m.order.drop m.orderHead from rfl, length, oldest]
  split
  · simp only [Retained.window, Option.elim_some, ← shown, List.tail_drop]
  · simp only [Retained.window, shown]

variable {r : WalRecord}

namespace Core

/-! ## Rows -/

variable {e : Core} {id : AccountID} {row : Row}

theorem find_slot (e : Core) (id : AccountID) (create : Bool) (k : AccountID) :
    (e.slot id create).1.table.find k =
      if create = true ∧ k = id then some ((e.table.find id).getD (.fresh id))
      else e.table.find k := by
  cases create
  · simp [slot]
  · simp only [slot, if_true, Table.find_ensure, true_and]

theorem find_modifyRow (found : e.table.find id = some row) (f : Row → Row) (k : AccountID) :
    (e.modifyRow (e.table.slot id) f).table.find k =
      if k = id then some (f row) else e.table.find k := by
  have known : (e.table.slot id).isSome = true := by rw [← Table.find_isSome, found]; rfl
  obtain ⟨i, here⟩ := Option.isSome_iff_exists.mp known
  rw [modifyRow, here, Option.getD_some, Table.find_modify here]
  split
  · rename_i same; rw [same, found]; rfl
  · rfl

@[simp] theorem slot_modifyRow (e : Core) (slot : Option Nat) (f : Row → Row) (id : AccountID) :
    (e.modifyRow slot f).table.slot id = e.table.slot id := rfl

@[simp] theorem epoch_modifyRow (e : Core) (slot : Option Nat) (f : Row → Row) :
    (e.modifyRow slot f).epoch = e.epoch := rfl

theorem row_slot (found : e.table.find id = some row) :
    e.table.row ((e.table.slot id).getD 0) = some row := by
  have known : (e.table.slot id).isSome = true := by rw [← Table.find_isSome, found]; rfl
  obtain ⟨i, here⟩ := Option.isSome_iff_exists.mp known
  rw [here, Option.getD_some, Table.row_slot here, found]

theorem accountAt_slot (found : e.table.find id = some row) :
    e.accountAt (e.table.slot id) = row.account := by
  rw [accountAt, row_slot found]

theorem find_store (found : e.table.find id = some row) (a : Account) (k : AccountID) :
    (e.store (e.table.slot id) a).table.find k =
      if k = id then some { row with account := a } else e.table.find k :=
  find_modifyRow found _ k

theorem slot_store (e : Core) (slot : Option Nat) (a : Account) (id : AccountID) :
    (e.store slot a).table.slot id = e.table.slot id := rfl

/-! ## Applying a record -/

/-- The row of an ID, a fresh one if it has none. -/
def rowOf (e : Core) (id : AccountID) : Row := (e.table.find id).getD (.fresh id)

def book (e : Core) : Book := fun id => (e.table.find id).map Row.toEntry

def bank (e : Core) : Bank := ⟨e.book, e.ledger, e.retained.window, e.sequence⟩

theorem isSome_book (e : Core) (id : AccountID) :
    (e.book id).isSome = (e.table.find id).isSome := by
  rw [book, Option.isSome_map]

theorem size_of_bank {t : Core} (bank : t.bank = e.bank) : t.table.size = e.table.size := by
  have book : t.book = e.book := congrArg Bank.book bank
  refine Table.size_congr fun id => ?_
  rw [← isSome_book, ← isSome_book, book]

theorem slot_eq_none (e : Core) (id : AccountID) : e.table.slot id = none ↔ e.book id = none := by
  rw [← Option.not_isSome_iff_eq_none, ← Option.not_isSome_iff_eq_none, isSome_book,
    Table.find_isSome]

theorem entry_book (e : Core) (id : AccountID) : e.book.entry id = (e.rowOf id).toEntry := by
  rw [Book.entry, book, rowOf]
  cases e.table.find id <;> rfl

theorem find_slot_create (e : Core) (id : AccountID) (k : AccountID) :
    (e.slot id true).1.table.find k = if k = id then some (e.rowOf k) else e.table.find k := by
  rw [find_slot]
  by_cases same : k = id
  · rw [if_pos ⟨rfl, same⟩, if_pos same, rowOf, same]
  · rw [if_neg (fun h => same h.2), if_neg same]

theorem otherSlot_of_ne (e : Core) (h : id ≠ 0) : e.otherSlot id = e.table.slot id := by
  simp [otherSlot, slot, h]

@[simp] theorem slot_applyEffect (e : Core) (aSlot bSlot : Option Nat) (r : WalRecord)
    (id : AccountID) : (e.applyEffect aSlot bSlot r).table.slot id = e.table.slot id := by
  unfold applyEffect writeEffect
  split_ifs <;> rfl

/-- The effect of an accepted record on the rows of its accounts. -/
theorem find_applyEffect {rowA : Row} (foundA : e.table.find r.a = some rowA)
    (transfer : r.effect = 3 → r.b ≠ 0 ∧ r.b ≠ r.a ∧ ∃ rowB, e.table.find r.b = some rowB)
    (k : AccountID) :
    (e.applyEffect (e.table.slot r.a) (e.otherSlot r.b) r).table.find k =
      if k = r.a then
        some { rowA with account := (r.settle rowA.toEntry).account
                         present := (r.settle rowA.toEntry).present }
      else if k = r.b then
        (e.table.find k).map fun row => { row with toEntry := r.receive row.toEntry }
      else e.table.find k := by
  have rows : (e.applyEffect (e.table.slot r.a) (e.otherSlot r.b) r).table =
      (e.writeEffect (e.table.slot r.a) (e.otherSlot r.b) r).table := by
    unfold applyEffect
    split <;> rfl
  have kept (entry : Entry) (h : r.effect ≠ 3) : r.receive entry = entry := if_neg h
  simp only [rows, writeEffect, accountAt_slot foundA]
  by_cases one : r.effect = 1
  · rw [if_pos one, find_modifyRow foundA]
    simp [WalRecord.settle, kept _ (by rw [one]; decide), one]
  by_cases two : r.effect = 2
  · rw [if_neg one, if_pos two, find_store foundA]
    simp [WalRecord.settle, kept _ (by rw [two]; decide), two]
  by_cases three : r.effect = 3
  · obtain ⟨nonzero, other, rowB, foundB⟩ := transfer three
    rw [if_neg one, if_neg two, if_pos three, otherSlot_of_ne e nonzero, accountAt_slot foundB]
    have stored := find_store foundA (rowA.account.withBalance r.newBalanceA)
    have foundB' := stored r.b
    rw [if_neg other, foundB] at foundB'
    have second := find_store foundB' (rowB.account.withBalance r.newBalanceB) k
    rw [slot_store] at second
    rw [second, stored]
    by_cases a : k = r.a
    · simp [a, Ne.symm other, WalRecord.settle, three]
    · by_cases b : k = r.b
      · simp [b, other, foundB, WalRecord.receive, three]
      · simp [a, b]
  by_cases four : r.effect = 4
  · rw [if_neg one, if_neg two, if_neg three, if_pos four, find_store foundA]
    simp [WalRecord.settle, kept _ three, four]
  · rw [if_neg one, if_neg two, if_neg three, if_neg four]
    by_cases a : k = r.a
    · simp [a, foundA, WalRecord.settle, one, two, three, four]
    · simp [a, kept _ three]

/-- A record changes the authoritative columns of the rows of its accounts. -/
theorem find_applyDurable (proper : r.Proper e.book) (k : AccountID) :
    (e.applyDurable r).table.find k =
      if k = r.a then some { e.rowOf k with toEntry := r.settle (e.rowOf k).toEntry }
      else if k = r.b then
        (e.table.find k).map fun row => { row with toEntry := r.receive row.toEntry }
      else e.table.find k := by
  have created := e.find_slot_create r.a
  have foundA := created r.a
  rw [if_pos rfl] at foundA
  have transfer : r.effect = 3 → r.b ≠ 0 ∧ r.b ≠ r.a ∧
      ∃ rowB, (e.slot r.a true).1.table.find r.b = some rowB := by
    intro three
    obtain ⟨nonzero, other, present⟩ := proper.transfer three
    have used := Book.eq_some_of_present present
    obtain ⟨rowB, foundB, -⟩ := Option.map_eq_some_iff.mp used
    exact ⟨nonzero, other, rowB, by rw [created, if_neg other, foundB]⟩
  have effect : ∀ e', e' = (if r.accepted then
        (e.slot r.a true).1.applyEffect (e.slot r.a true).2 ((e.slot r.a true).1.otherSlot r.b) r
      else (e.slot r.a true).1) → e'.table.slot r.a = (e.slot r.a true).2 ∧ ∀ k, e'.table.find k =
      if k = r.a then
        some { e.rowOf r.a with account := (r.settle (e.rowOf r.a).toEntry).account
                                present := (r.settle (e.rowOf r.a).toEntry).present }
      else if k = r.b then
        (e.table.find k).map fun row => { row with toEntry := r.receive row.toEntry }
      else e.table.find k := by
    rintro e' rfl
    split
    · refine ⟨slot_applyEffect _ _ _ _ _, fun k => ?_⟩
      have effect := find_applyEffect foundA transfer k
      rw [created] at effect
      rw [show (e.slot r.a true).2 = (e.slot r.a true).1.table.slot r.a from rfl, effect]
      split <;> simp_all
    · rename_i rejected
      have none := proper.rejected (by simpa using rejected)
      refine ⟨rfl, fun k => ?_⟩
      rw [created]
      by_cases a : k = r.a
      · simp [a, WalRecord.settle, none]
      · simp [a, WalRecord.receive, none]
  obtain ⟨slot, find⟩ := effect _ rfl
  have final := find_modifyRow (by rw [find, if_pos rfl])
    (fun row => { row with agent := r.agent }) k
  rw [slot] at final
  refine final.trans ?_
  rw [find]
  by_cases a : k = r.a
  · simp [a, WalRecord.settle]
  · simp [a]

theorem book_applyDurable (proper : r.Proper e.book) :
    (e.applyDurable r).book = e.book.apply r := by
  funext k
  rw [book, find_applyDurable proper, Book.apply, entry_book, book]
  split
  · rfl
  · split <;> simp [Option.map_map, Function.comp_def]

theorem applyEffect_eq (e : Core) (aSlot bSlot : Option Nat) (r : WalRecord) :
    e.applyEffect aSlot bSlot r =
      { e with table := (e.applyEffect aSlot bSlot r).table, ledger := e.ledger ++ r.entries } := by
  have written : e.writeEffect aSlot bSlot r =
      { e with table := (e.writeEffect aSlot bSlot r).table } := by
    unfold writeEffect
    split_ifs <;> rfl
  unfold applyEffect WalRecord.entries
  split
  · rw [written]
  · rw [List.append_nil, ← written]

theorem applyDurable_eq (rejected : r.accepted = false → r.effect = 0) :
    e.applyDurable r =
      { e with
        table := (e.applyDurable r).table
        ledger := e.ledger ++ r.entries
        retained := e.retained.remember e.bounds.dedupeWindow r.commandID r.result
        sequence := r.sequence } := by
  simp only [applyDurable]
  cases accepted : r.accepted with
  | true =>
    rw [if_pos rfl, applyEffect_eq]
    rfl
  | false =>
    have none : r.entries = [] := by simp [WalRecord.entries, rejected accepted]
    simp [none, setAgent, modifyRow, slot]

theorem bank_applyDurable (proper : r.Proper e.book) :
    (e.applyDurable r).bank = e.bank.apply e.bounds.dedupeWindow r := by
  rw [bank, book_applyDurable proper, applyDurable_eq proper.rejected]
  simp only [bank, Bank.apply, Retained.window_remember]

theorem bank_foldl_applyDurable {rs : List WalRecord} (run : e.book.ProperRun rs) :
    (rs.foldl applyDurable e).bank = rs.foldl (Bank.apply e.bounds.dedupeWindow) e.bank := by
  induction rs generalizing e with
  | nil => rfl
  | cons r rs ih =>
    obtain ⟨proper, run⟩ := run
    rw [List.foldl_cons, List.foldl_cons, ← bank_applyDurable proper, ih]
    · rw [applyDurable_eq proper.rejected]
    · rwa [book_applyDurable proper]

/-! ## Staged accounts -/

/-- The entry of a row as the batch that is decided sees it. -/
def stagedEntry (e : Core) (row : Row) : Entry :=
  if e.Marked row then ⟨row.scratch, true, row.agent⟩ else row.toEntry

/-- The entries as the batch that is decided sees them. -/
def staged (e : Core) : Book := fun id => (e.table.find id).map e.stagedEntry

theorem accountFor_slot (e : Core) (id : AccountID) :
    e.accountFor (e.table.slot id) = ((e.staged id).map Entry.account).getD {} := by
  have row : (e.table.slot id).bind e.table.row = e.table.find id := rfl
  rw [accountFor, row, staged]
  cases e.table.find id with
  | none => rfl
  | some row =>
    simp only [Option.map_some, Option.getD_some, stagedEntry]
    split <;> rfl

theorem existsIn_slot (e : Core) (id : AccountID) :
    e.existsIn (e.table.slot id) = (e.staged.entry id).present := by
  have row : (e.table.slot id).bind e.table.row = e.table.find id := rfl
  rw [existsIn, row, Book.entry, staged]
  cases e.table.find id with
  | none => rfl
  | some row =>
    simp only [Option.map_some, Option.getD_some, stagedEntry]
    by_cases marked : e.Marked row <;> simp [marked]

theorem agentFor_slot (e : Core) (id : AccountID) :
    e.agentFor (e.table.slot id) = (e.staged.entry id).agent := by
  have row : (e.table.slot id).bind e.table.row = e.table.find id := rfl
  rw [agentFor, row, Book.entry, staged]
  cases e.table.find id with
  | none => rfl
  | some row =>
    simp only [Option.map_some, Option.getD_some, stagedEntry]
    split <;> rfl

/-- The account read for an ID, up to the ID of an account that does not exist. -/
theorem accountFor_slot_eq (e : Core) (id : AccountID) :
    ∃ x, e.accountFor (e.table.slot id) = { (e.staged.entry id).account with id := x } := by
  rw [accountFor_slot, Book.entry]
  cases e.staged id with
  | none => exact ⟨0, rfl⟩
  | some entry => exact ⟨entry.account.id, rfl⟩

/-- The engine decides a command on the staged book. -/
theorem decideRecord_staged (e : Core) (sequence : UInt64) (c : Command) :
    decideRecord sequence c (e.accountFor (e.table.slot c.account))
        (e.existsIn (e.table.slot c.account)) (e.accountFor (e.otherSlot c.other))
        (e.existsIn (e.otherSlot c.other)) (e.agentFor (e.table.slot c.account)) =
      e.staged.decide sequence c := by
  obtain ⟨x, account⟩ := e.accountFor_slot_eq c.account
  have other : (∃ y, e.accountFor (e.otherSlot c.other) =
      { (e.staged.peer c.other).account with id := y }) ∧
      e.existsIn (e.otherSlot c.other) = (e.staged.peer c.other).present := by
    by_cases zero : c.other = 0
    · simp only [otherSlot, Book.peer, zero, ne_eq, not_true_eq_false, if_false, if_true]
      exact ⟨⟨0, rfl⟩, rfl⟩
    · rw [otherSlot_of_ne e zero, Book.peer_of_ne zero]
      exact ⟨e.accountFor_slot_eq c.other, e.existsIn_slot c.other⟩
  obtain ⟨⟨y, peer⟩, peerExists⟩ := other
  rw [account, peer, peerExists, existsIn_slot, agentFor_slot, decideRecord_ids]
  rfl

end Core

end OctetDB.Accounts
