import OctetDB.Accounts.Answers
import OctetDB.Accounts.Balance

/-!
# Versions count ledger entries

The version of an account is advanced with every ledger entry that touches it, the first of which
creates it. Sequences number the entries as long as they do not wrap.
-/

namespace OctetDB.Accounts

/-- The entry changes the account. Only a transfer has a destination that it changes. -/
def LedgerEntry.Touches (x : LedgerEntry) (id : AccountID) : Prop :=
  (x.effectTag = 1 ∨ x.effectTag = 2 ∨ x.effectTag = 4) ∧ x.source = id ∨
    x.effectTag = 3 ∧ (x.source = id ∨ x.target = id)

instance (x : LedgerEntry) (id : AccountID) : Decidable (x.Touches id) :=
  inferInstanceAs (Decidable (_ ∨ _))

def touching (ledger : List LedgerEntry) (id : AccountID) : List LedgerEntry :=
  ledger.filter (·.Touches id)

/-- The versions of a book count the entries of a ledger. -/
structure Counted (book : Book) (ledger : List LedgerEntry) (sequence : UInt64) : Prop where
  present : ∀ id, (book.entry id).present = true →
    (book.entry id).account.version.toNat = (touching ledger id).length ∧
      ∃ x rest, touching ledger id = x :: rest ∧ x.effectTag = 1
  absent : ∀ id, (book.entry id).present = false → touching ledger id = []
  order : (ledger.map (·.sequence)).Pairwise (· < ·)
  le : ∀ x ∈ ledger, x.sequence ≤ sequence
  length : ledger.length ≤ sequence.toNat

namespace Counted

variable {D F : Book} {ledger : List LedgerEntry} {sequence : UInt64} {r : WalRecord}

theorem empty : Counted (fun _ => none) [] 0 :=
  ⟨nofun, fun _ _ => rfl, .nil, nofun, le_rfl⟩

theorem agree (counted : Counted D ledger sequence) {stale : Set AccountID}
    (same : Book.Agree stale D F) : Counted F ledger sequence :=
  ⟨fun id present => same.account id ▸ counted.present id (same.present id ▸ present),
    fun id absent => counted.absent id (same.present id ▸ absent), counted.order, counted.le,
    counted.length⟩

/-- What a record does to the version of an account. -/
theorem entry_touched (proper : r.Proper D)
    (fresh : r.effect = 1 → (D.entry r.a).present = false)
    (range : r.effect = 0 ∨ r.effect = 1 ∨ r.effect = 2 ∨ r.effect = 3 ∨ r.effect = 4)
    (id : AccountID) :
    if r.ledgerEntry.Touches id then
      ((D.apply r).entry id).present = true ∧
        ((D.apply r).entry id).account.version =
          (if r.effect = 1 then 1 else (D.entry id).account.version + 1) ∧
        (r.effect = 1 ∧ (D.entry id).present = false ∨
          r.effect ≠ 1 ∧ (D.entry id).present = true)
    else ((D.apply r).entry id).present = (D.entry id).present ∧
      ((D.apply r).entry id).account.version = (D.entry id).account.version := by
  obtain ⟨-, known, transfer⟩ := proper
  have used : r.effect = 3 → (D r.b).isSome := fun three => by
    rw [Book.eq_some_of_present (transfer three).2.2]
    rfl
  rw [Book.entry_apply]
  simp only [LedgerEntry.Touches, WalRecord.ledgerEntry, WalRecord.settle, WalRecord.receive]
  by_cases a : id = r.a
  · subst a
    rcases range with h | h | h | h | h <;>
      simp_all [WalRecord.created, Account.withBalance, Account.withStatus]
  · have other : r.a ≠ id := Ne.symm a
    rcases range with h | h | h | h | h <;> simp only [h, a, other, if_false] <;> try simp
    by_cases b : id = r.b
    · subst b
      simp [used h, (transfer h).2.2, Account.withBalance]
    · simp [b, Ne.symm b]

theorem entries_eq (range : r.effect = 0 ∨ r.effect = 1 ∨ r.effect = 2 ∨
    r.effect = 3 ∨ r.effect = 4) :
    r.entries = if r.effect = 0 then [] else [r.ledgerEntry] := by
  unfold WalRecord.entries
  rcases range with h | h | h | h | h <;> rw [h] <;> rfl

theorem step (counted : Counted D ledger sequence) {S : Book} {c : Command}
    (shows : Book.Shows S D) (valid : c.Valid) (decided : r = S.decide r.sequence c)
    (next : r.sequence = sequence + 1) (room : sequence.toNat + 1 < 2 ^ 64) :
    Counted (D.apply r) (ledger ++ r.entries) r.sequence := by
  obtain ⟨proper, d, cases, -, effect, -, -⟩ := shows.decided valid r.sequence
  have a : (S.decide r.sequence c).a = c.account := rfl
  have range : r.effect = 0 ∨ r.effect = 1 ∨ r.effect = 2 ∨ r.effect = 3 ∨ r.effect = 4 := by
    rw [decided]
    exact Book.effect_le
  have fresh : r.effect = 1 → (D.entry r.a).present = false := by
    rw [decided, effect, a]
    cases cases <;> simp_all [unchanged]
  rw [← decided] at proper
  have number : r.sequence.toNat = sequence.toNat + 1 := by
    rw [next, UInt64.toNat_add, UInt64.toNat_one, Nat.mod_eq_of_lt room]
  have below : ∀ x ∈ ledger, x.sequence < r.sequence := fun x mem => by
    have := UInt64.le_iff_toNat_le.mp (counted.le x mem)
    rw [UInt64.lt_iff_toNat_lt]
    omega
  have touched (id : AccountID) : touching (ledger ++ r.entries) id =
      touching ledger id ++ if r.ledgerEntry.Touches id then [r.ledgerEntry] else [] := by
    rw [touching, List.filter_append, entries_eq range]
    by_cases zero : r.effect = 0
    · simp [zero, touching, LedgerEntry.Touches, WalRecord.ledgerEntry]
    · rw [if_neg zero]
      by_cases touches : r.ledgerEntry.Touches id <;> simp [touches, touching]
  have short (id : AccountID) : (touching ledger id).length ≤ sequence.toNat :=
    (List.length_filter_le _ _).trans counted.length
  constructor
  · intro id present
    have change := entry_touched proper fresh range id
    rw [touched]
    split at change <;> rename_i touches
    · obtain ⟨-, version, ⟨one, absent⟩ | ⟨other, known⟩⟩ := change
      · rw [counted.absent id absent, version, if_pos one, if_pos touches]
        exact ⟨rfl, _, _, rfl, one⟩
      · obtain ⟨count, x, rest, first, creates⟩ := counted.present id known
        have := short id
        rw [version, if_neg other, if_pos touches, UInt64.toNat_add, count]
        refine ⟨?_, x, rest ++ [r.ledgerEntry], by simp [first], creates⟩
        rw [List.length_append, List.length_singleton, UInt64.toNat_one]
        omega
    · rw [change.1] at present
      rw [change.2, if_neg touches, List.append_nil]
      exact counted.present id present
  · intro id absent
    have change := entry_touched proper fresh range id
    rw [touched]
    split at change <;> rename_i touches
    · rw [change.1] at absent
      cases absent
    · rw [if_neg touches, List.append_nil]
      exact counted.absent id (change.1 ▸ absent)
  · rw [entries_eq range]
    split
    · simpa using counted.order
    · rw [List.map_append]
      refine Bank.Sound.pairwise_concat counted.order fun y mem => ?_
      obtain ⟨x, old, rfl⟩ := List.mem_map.mp mem
      exact below x old
  · intro x mem
    rcases List.mem_append.mp mem with old | new
    · exact UInt64.le_of_lt (below x old)
    · rw [entries_eq range] at new
      split at new
      · cases new
      · rw [List.mem_singleton.mp new]
        exact UInt64.le_refl _
  · have := counted.length
    rw [entries_eq range, number, List.length_append]
    split
    · exact this.trans (Nat.le_succ _)
    · exact Nat.succ_le_succ this

theorem of_chronicle {horizon : Nat} {done : List WalRecord} {bank : Bank}
    (chronicle : Chronicle horizon done bank) : Counted bank.book bank.ledger bank.sequence := by
  induction done using List.reverseRecOn generalizing bank with
  | nil =>
    rw [chronicle.bank_eq]
    exact empty
  | append_singleton done r ih =>
    obtain ⟨rfl, following, decided, room⟩ := chronicle
    obtain ⟨before, follows, -⟩ := Bank.extends_append.mp following
    obtain ⟨decided, ⟨S, c, shows, valid, record⟩, -⟩ := Book.decidedRun_append.mp decided
    rw [List.length_append, List.length_singleton] at room
    have past : Chronicle horizon done (done.foldl (Bank.apply horizon) {}) :=
      ⟨rfl, before, decided, by omega⟩
    rw [← past.book] at shows
    rw [List.foldl_append]
    exact (ih past).step shows valid record follows.next (by rw [past.count]; exact room)

end Counted

theorem Recorded.counted {cfg : CoreConfig} {s : Session} {done doubt : List WalRecord}
    (recorded : Recorded cfg Operation.Safe s done doubt) :
    Counted s.core.book s.core.ledger s.core.sequence := by
  have chronicled := recorded.chronicled
  have sane (h : s.core.poisoned = none) : Counted s.core.book s.core.ledger s.core.sequence :=
    .of_chronicle (chronicled.sane h)
  -- Only the state behind a batch that failed is not the one of the recorded decisions.
  induction recorded with
  | created opens =>
    obtain ⟨wal, rfl⟩ := openCore_new opens
    exact sane rfl
  | answered before _ ok => exact sane (Core.answered before.chronicled.marks ok).sane
  | refused before _ error same ih =>
    rcases Core.unanswered before.chronicled.marks error with unchanged | ⟨poisoned, clean, -⟩
    · rw [Session.run, unchanged]
      exact ih before.chronicled fun h => .of_chronicle (before.chronicled.sane h)
    · exact absurd (same.trans clean) poisoned
  | failed before _ error poisons ih =>
    rcases Core.unanswered before.chronicled.marks error with
      unchanged | ⟨-, clean, -, book, agree, bank, -⟩
    · exact absurd (congrArg Core.poisoned unchanged) poisons
    · have counted := Counted.of_chronicle (before.chronicled.sane clean)
      obtain ⟨books, ledger, -, sequence⟩ := Bank.mk.inj bank
      rw [Session.run, books, ledger, sequence]
      exact counted.agree agree
  | @snapshot s _ _ _ fault safe =>
    obtain ⟨wal, core⟩ := s.core_snapshot fault
    exact sane (by rw [Session.run, core]; exact safe.1)
  | closed before _ ih =>
    exact ih before.chronicled fun h => .of_chronicle (before.chronicled.sane h)
  | reopened before durable opens =>
    obtain ⟨live, kept, -⟩ := before.chronicled.saved durable
    obtain ⟨_, _, _, inStep, -⟩ := (kept.reopened durable opens).2.kept
    exact sane inStep.sane

end OctetDB.Accounts
