import OctetDB.Accounts.Bank
import OctetDB.Lib.Json.Decode

/-!
# The store of the research engines

The research engines keep accounts in a map and append to a ledger. They decide the commands of
the account engine with the same `decideGo`; what a decision does is a record, which the store
applies. A store shows a book if its accounts are the present ones of the book.
-/

namespace OctetDB.Research

open Accounts

structure LogRecord where
  version : Int64 := 0
  schemaID : Bytes := []
  programID : Bytes := []
  sequence : UInt64 := 0
  agentID : AccountID := 0
  commandID : Bytes := []
  commandKind : Int64 := 0
  accountA : AccountID := 0
  accountB : AccountID := 0
  amount : Int64 := 0
  result : Result := {}
  effectTag : Int64 := 0
  newBalanceA : Int64 := 0
  newBalanceB : Int64 := 0
  newStatusTag : Int64 := 0
  expectedA : UInt64 := 0
  expectedB : UInt64 := 0
  checkpoint : Bytes := []
  flowDelta : Bytes := []
  deriving DecidableEq, Repr

def LogRecord.ledgerEntry (r : LogRecord) : LedgerEntry where
  sequence := r.sequence
  commandID := r.commandID
  source := r.accountA
  target := r.accountB
  amount := r.amount
  effectTag := r.effectTag

structure Store where
  accounts : WordMap Account := ∅
  ledger : List LedgerEntry := []

/-- The accounts of a command as a store has them. -/
structure View where
  a : Account
  aok : Bool
  b : Account
  bok : Bool
  deriving DecidableEq, Repr

namespace Store

def view (s : Store) (a b : AccountID) : View where
  a := s.accounts.getD a {}
  aok := s.accounts.contains a
  b := s.accounts.getD b {}
  bok := s.accounts.contains b

def put (s : Store) (id : AccountID) (a : Account) : Store :=
  { s with accounts := s.accounts.insert id a }

/-- Writes the accounts of a record; an effect that is not known writes nothing. -/
def write (s : Store) (r : LogRecord) : Option Store :=
  let a := s.accounts.getD r.accountA {}
  let b := s.accounts.getD r.accountB {}
  if r.effectTag = 1 then
    some (s.put r.accountA
      { id := r.accountA, balance := r.newBalanceA, status := statusOpen, version := 1 })
  else if r.effectTag = 2 then some (s.put r.accountA (a.withBalance r.newBalanceA))
  else if r.effectTag = 3 then
    some ((s.put r.accountA (a.withBalance r.newBalanceA)).put r.accountB
      (b.withBalance r.newBalanceB))
  else if r.effectTag = 4 then some (s.put r.accountA (a.withStatus r.newStatusTag))
  else none

def apply (s : Store) (r : LogRecord) : Store :=
  if !r.result.accepted then s
  else
    match s.write r with
    | none => s
    | some t => { t with ledger := t.ledger ++ [r.ledgerEntry] }

end Store

/-- The record of a decision, with the version, the identities and the sequence of `base`. -/
def decisionRecord (base : LogRecord) (c : Command) (v : View) (d : Decision) (turns : Int64)
    (checkpoint : Bytes) : LogRecord :=
  { base with
    agentID := c.account
    commandID := c.id
    commandKind := c.kind.tag
    accountA := c.account
    accountB := c.other
    amount := c.amount
    result :=
      { sequence := base.sequence, commandID := c.id, accepted := d.accepted, reasonTag := d.reason
        effectTag := d.effect, transitionCount := turns }
    effectTag := d.effect
    newBalanceA := d.balanceA
    newBalanceB := d.balanceB
    newStatusTag := d.status
    expectedA := v.a.version
    expectedB := v.b.version
    checkpoint := checkpoint }

/-! ## Books -/

/-- The records have the same effect. -/
structure LogRecord.Matches (l : LogRecord) (r : WalRecord) : Prop where
  accountA : l.accountA = r.a
  accountB : l.accountB = r.b
  accepted : l.result.accepted = r.accepted
  effectTag : l.effectTag = r.effect
  newBalanceA : l.newBalanceA = r.newBalanceA
  newBalanceB : l.newBalanceB = r.newBalanceB
  newStatusTag : l.newStatusTag = r.newStatus
  entry : l.ledgerEntry = r.ledgerEntry

/-- The accounts that are not present have nothing but their ID, and there is none for zero. -/
structure Bare (book : Book) : Prop where
  absent : ∀ id, (book.entry id).present = false → (book.entry id).account = { id := id }
  zero : (book.entry 0).present = false

/-- The accounts of a store are the present ones of a book. -/
def Store.Shows (s : Store) (book : Book) : Prop :=
  ∀ id, s.accounts[id]? =
    if (book.entry id).present then some (book.entry id).account else none

namespace Store.Shows

variable {s : Store} {book : Book}

theorem contains (shows : s.Shows book) (id : AccountID) :
    s.accounts.contains id = (book.entry id).present := by
  rw [Std.ExtTreeMap.contains_eq_isSome_getElem?, shows id]
  cases (book.entry id).present <;> rfl

theorem getD (shows : s.Shows book) {id : AccountID} (present : (book.entry id).present = true) :
    s.accounts.getD id {} = (book.entry id).account := by
  rw [Std.ExtTreeMap.getD_eq_getD_getElem?, shows id, if_pos present]
  rfl

theorem getElem?_put (s : Store) (k id : AccountID) (a : Account) :
    (s.put k a).accounts[id]? = if id = k then some a else s.accounts[id]? := by
  rw [Store.put, Std.ExtTreeMap.getElem?_insert]
  by_cases same : id = k
  · simp [same]
  · simp [same, Ne.symm same]

/-- An account of the store is that of the book up to its ID, which decisions do not read. -/
theorem getD_eq (shows : s.Shows book) (bare : Bare book) (id : AccountID) :
    ∃ x, s.accounts.getD id {} = { (book.entry id).account with id := x } := by
  cases present : (book.entry id).present with
  | true => exact ⟨_, shows.getD present⟩
  | false =>
    refine ⟨0, ?_⟩
    rw [Std.ExtTreeMap.getD_eq_getD_getElem?, shows id, bare.absent id present]
    simp [present]

theorem decideGo_ids (c : Command) (a : Account) (aok : Bool) (b : Account) (bok : Bool)
    (pending : PendingTransfer) (x y : AccountID) :
    Accounts.decideGo c { a with id := x } aok { b with id := y } bok pending =
      Accounts.decideGo c a aok b bok pending := by
  unfold Accounts.decideGo decideTransfer
  rfl

/-- A decision on the accounts in the store is the one on the entries of the book. -/
theorem decideGo_view (shows : s.Shows book) (bare : Bare book) (c : Command)
    (pending : PendingTransfer) :
    let v := s.view c.account c.other
    decideGo c v.a v.aok v.b v.bok pending =
      decideGo c (book.entry c.account).account (book.entry c.account).present
        (book.peer c.other).account (book.peer c.other).present pending := by
  intro v
  have peer : (book.entry c.other).present = (book.peer c.other).present ∧
      ∃ y, (book.entry c.other).account = { (book.peer c.other).account with id := y } := by
    unfold Book.peer
    split
    · rename_i zero
      rw [zero, bare.zero, bare.absent 0 bare.zero]
      exact ⟨rfl, 0, rfl⟩
    · exact ⟨rfl, _, rfl⟩
  obtain ⟨present, y, other⟩ := peer
  obtain ⟨x, a⟩ := shows.getD_eq bare c.account
  obtain ⟨z, b⟩ := shows.getD_eq bare c.other
  have aok : v.aok = (book.entry c.account).present := shows.contains c.account
  have bok : v.bok = (book.peer c.other).present := (shows.contains c.other).trans present
  rw [aok, bok, show v.a = _ from a, show v.b = _ from b, other]
  exact decideGo_ids ..

/-- What a record without an effect leaves of the accounts. -/
theorem entry_of_no_effect (book : Book) {r : WalRecord} (none : ¬ (1 ≤ r.effect ∧ r.effect ≤ 4))
    (id : AccountID) : ((book.apply r).entry id).account = (book.entry id).account ∧
      ((book.apply r).entry id).present = (book.entry id).present := by
  have effects : r.effect ≠ 1 ∧ r.effect ≠ 2 ∧ r.effect ≠ 3 ∧ r.effect ≠ 4 := by
    refine ⟨?_, ?_, ?_, ?_⟩ <;> rintro same <;> rw [same] at none <;> exact none (by decide)
  obtain ⟨one, two, three, four⟩ := effects
  rw [Book.entry_apply]
  split
  · simp [WalRecord.settle, one, two, three, four]
  · simp [WalRecord.receive, three]

/-- A record that fits the book is applied to the store like to the book. -/
theorem apply (shows : s.Shows book) {l : LogRecord} {r : WalRecord} (same : l.Matches r)
    (proper : r.Proper book) : (s.apply l).Shows (book.apply r) ∧
      (s.apply l).ledger = s.ledger ++ r.entries := by
  obtain ⟨accountA, accountB, accepted, effectTag, newBalanceA, newBalanceB, newStatusTag, entry⟩ :=
    same
  unfold Store.apply
  rw [accepted]
  by_cases effect : 1 ≤ r.effect ∧ r.effect ≤ 4
  · have taken : r.accepted = true := by
      by_contra rejected
      rw [proper.rejected (by simpa using rejected)] at effect
      exact absurd effect.1 (by decide)
    have ledger : r.entries = [l.ledgerEntry] := by rw [WalRecord.entries, if_pos effect, entry]
    have cases : r.effect = 1 ∨ r.effect = 2 ∨ r.effect = 3 ∨ r.effect = 4 := by grind
    rw [taken, ledger]
    simp only [Bool.not_true, Bool.false_eq_true, if_false, Store.write, accountA,
      accountB, effectTag,
      newBalanceA, newBalanceB, newStatusTag]
    rcases cases with one | two | three | four
    · simp only [one, if_true]
      refine ⟨fun id => ?_, rfl⟩
      rw [getElem?_put, Book.entry_apply]
      split
      · simp [WalRecord.settle, WalRecord.created, *]
      · simp [WalRecord.receive, one, shows id]
    · have present := proper.known (.inl two)
      simp only [two, show ¬ ((2 : Int64) = 1) by decide, if_true, if_false]
      refine ⟨fun id => ?_, rfl⟩
      rw [getElem?_put, Book.entry_apply]
      split
      · rename_i here
        simp [WalRecord.settle, two, here, present, shows.getD present]
      · simp [WalRecord.receive, two, shows id]
    · have present := proper.known (.inr (.inl three))
      obtain ⟨-, other, presentB⟩ := proper.transfer three
      simp only [three, show ¬ ((3 : Int64) = 1) by decide, show ¬ ((3 : Int64) = 2) by decide,
        if_true,
        if_false]
      refine ⟨fun id => ?_, rfl⟩
      rw [getElem?_put, getElem?_put, Book.entry_apply]
      by_cases b : id = r.b
      · subst b
        have known := Book.eq_some_of_present presentB
        simp [WalRecord.receive, three, other, known, presentB, shows.getD presentB]
      · simp only [b, if_false, false_and]
        split
        · rename_i here
          simp [WalRecord.settle, three, here, present, shows.getD present]
        · exact shows id
    · have present := proper.known (.inr (.inr four))
      simp only [four, show ¬ ((4 : Int64) = 1) by decide, show ¬ ((4 : Int64) = 2) by decide,
        show ¬ ((4 : Int64) = 3) by decide, if_true, if_false]
      refine ⟨fun id => ?_, rfl⟩
      rw [getElem?_put, Book.entry_apply]
      split
      · rename_i here
        simp [WalRecord.settle, four, here, present, shows.getD present]
      · simp [WalRecord.receive, four, shows id]
  · have kept : s.write l = none := by
      rw [Store.write, effectTag]
      grind
    have same : (if !r.accepted then s else match s.write l with
        | none => s
        | some t => { t with ledger := t.ledger ++ [l.ledgerEntry] }) = s := by
      rw [kept]
      simp
    rw [same]
    refine ⟨fun id => ?_, by simp [WalRecord.entries, effect]⟩
    obtain ⟨account, present⟩ := entry_of_no_effect book effect id
    rw [account, present]
    exact shows id

end Store.Shows

namespace Bare

variable {book : Book} {r : WalRecord}

theorem empty : Bare fun _ => none := ⟨fun _ _ => rfl, rfl⟩

/-- A record that fits the book creates accounts and changes present ones. -/
theorem apply (bare : Bare book) (proper : r.Proper book) (nonzero : r.a ≠ 0) :
    Bare (book.apply r) := by
  have receive (e : Entry) : (r.receive e).present = e.present := by
    unfold WalRecord.receive
    split <;> rfl
  refine ⟨fun id absent => ?_, ?_⟩
  · rw [Book.entry_apply] at absent ⊢
    split at absent <;> rename_i here
    · rw [if_pos here, here] at *
      obtain ⟨old, one⟩ : (book.entry r.a).present = false ∧ r.effect ≠ 1 := by
        simpa [WalRecord.settle, here] using absent
      have others : ¬ (r.effect = 2 ∨ r.effect = 3 ∨ r.effect = 4) := fun known => by
        simp [proper.known known] at old
      simp only [not_or] at others
      simp [WalRecord.settle, one, others, bare.absent r.a old]
    · rw [if_neg here]
      split at absent <;> rename_i other
      · rw [if_pos other]
        rw [receive] at absent
        have three : r.effect ≠ 3 := fun three => by
          have present := (proper.transfer three).2.2
          rw [← other.1, absent] at present
          cases present
        simp [WalRecord.receive, three, bare.absent id absent]
      · rw [if_neg other]
        exact bare.absent id absent
  · rw [Book.entry_apply, if_neg (Ne.symm nonzero)]
    split
    · rw [receive]
      exact bare.zero
    · exact bare.zero

end Bare

end OctetDB.Research
