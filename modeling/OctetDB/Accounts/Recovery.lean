import OctetDB.Accounts.Decisions
import OctetDB.Accounts.Session

/-!
# Recovering a bank

The log holds records, and a snapshot holds a bank. A record follows a bank if the engine can
have written it there: its sequence is the next one, its ID is not retained, and it expects the
versions that the accounts have. Records that follow are applied again without an objection, so
an engine opens with the bank that its directory holds.
-/

namespace OctetDB.Accounts

/-! ## Records that follow a bank -/

/-- The record is one of a decision on the bank. -/
structure WalRecord.Follows (bank : Bank) (r : WalRecord) : Prop where
  next : r.sequence = bank.sequence + 1
  fresh : r.commandID ∉ bank.window.dedupe
  proper : r.Proper bank.book
  expectedA : r.expectedA = (bank.book.entry r.a).account.version
  expectedB : r.expectedB = (bank.book.peer r.b).account.version

/-- Every record follows the bank that the ones before it leave. -/
def Bank.Extends (horizon : Nat) : Bank → List WalRecord → Prop
  | _, [] => True
  | bank, r :: rs => r.Follows bank ∧ (bank.apply horizon r).Extends horizon rs

theorem Bank.extends_append {horizon : Nat} {bank : Bank} {rs ts : List WalRecord} :
    bank.Extends horizon (rs ++ ts) ↔
      bank.Extends horizon rs ∧ (rs.foldl (Bank.apply horizon) bank).Extends horizon ts := by
  induction rs generalizing bank with
  | nil => simp [Extends]
  | cons r rs ih => simp [Extends, ih, and_assoc]

section Sequences

variable {horizon : Nat} {bank : Bank} {rs : List WalRecord}

/-- As long as the sequence does not wrap, it counts the records. -/
theorem Bank.Extends.count (following : bank.Extends horizon rs)
    (room : bank.sequence.toNat + rs.length < 2 ^ 64) :
    (rs.foldl (Bank.apply horizon) bank).sequence.toNat = bank.sequence.toNat + rs.length := by
  induction rs generalizing bank with
  | nil => rfl
  | cons r rs ih =>
    obtain ⟨follows, rest⟩ := following
    rw [List.length_cons] at room
    have next : (bank.apply horizon r).sequence.toNat = bank.sequence.toNat + 1 := by
      rw [show (bank.apply horizon r).sequence = bank.sequence + 1 from follows.next,
        UInt64.toNat_add]
      simp only [UInt64.toNat_one]
      omega
    rw [List.foldl_cons, ih rest (by omega), next, List.length_cons]
    omega

/-- The sequences of the records are behind the one of the bank, up to the last one. -/
theorem Bank.Extends.within (following : bank.Extends horizon rs)
    (room : bank.sequence.toNat + rs.length < 2 ^ 64) {r : WalRecord} (mem : r ∈ rs) :
    bank.sequence < r.sequence ∧ r.sequence ≤ (rs.foldl (Bank.apply horizon) bank).sequence := by
  obtain ⟨before, after, rfl⟩ := List.append_of_mem mem
  rw [List.length_append, List.length_cons] at room
  obtain ⟨first, follows, rest⟩ := Bank.extends_append.mp following
  have count := first.count (by omega)
  have next : r.sequence.toNat = bank.sequence.toNat + before.length + 1 := by
    rw [follows.next, UInt64.toNat_add, count]
    simp only [UInt64.toNat_one]
    omega
  have last := following.count (by rw [List.length_append, List.length_cons]; omega)
  rw [List.length_append, List.length_cons] at last
  rw [UInt64.lt_iff_toNat_lt, UInt64.le_iff_toNat_le]
  omega

end Sequences

/-- The records of a batch of new commands follow the bank that it is decided on. -/
theorem Decisions.extends_batch {horizon : Nat} {bank : Bank} {commands : List Command}
    (valid : ∀ c ∈ commands, c.Valid) (fresh : ∀ c ∈ commands, c.id ∉ bank.window.dedupe)
    (distinct : (commands.map (·.id)).Nodup) :
    bank.Extends horizon (batch bank.book bank.sequence commands).records := by
  induction commands using List.reverseRecOn with
  | nil => trivial
  | append_singleton before c ih =>
    have valid' : ∀ d ∈ before, d.Valid := fun d mem => valid d (by simp [mem])
    have shows := shows_batch bank.book bank.sequence valid'
    rw [List.map_append, List.nodup_append] at distinct
    rw [batch_concat, step, Bank.extends_append]
    refine ⟨ih valid' (fun d mem => fresh d (by simp [mem])) distinct.1, ?_, trivial⟩
    rw [Bank.foldl_apply]
    constructor
    · have counted := sequence_run Book.stage bank.book bank.sequence before
      simp only [Book.decide_sequence]
      rw [show (batch bank.book bank.sequence before) =
        run Book.stage bank.book bank.sequence before
        from rfl, counted, length_run]
    · intro mem
      have ids : (batch bank.book bank.sequence before).records.map (·.commandID) =
          before.map (·.id) := map_run _ _ _ _ fun _ _ _ => rfl
      rcases Window.mem_foldl_retain mem with old | earlier
      · exact fresh c (by simp) old
      · rw [ids] at earlier
        exact distinct.2.2 c.id earlier c.id (by simp) rfl
    · exact shows.agree.proper (Book.decideWith_proper (valid c (by simp)) _ _)
    · exact congrArg Account.version (shows.agree.account c.account)
    · exact congrArg Account.version (shows.agree.peer_account c.other).1

/-- The records of a batch follow the bank of the engine. -/
theorem Core.extends_decideBatch {e : Core} {commands : List Command} (below : e.MarksBelow)
    (valid : ∀ c ∈ commands, c.Valid) :
    e.bank.Extends e.bounds.dedupeWindow (e.decideBatch commands).records := by
  obtain ⟨fresh, distinct⟩ := e.executed_ids commands
  rw [records_decideBatch below valid]
  exact Decisions.extends_batch (fun c mem => valid c (e.executed_subset commands c mem)) fresh
    distinct

/-! ## Applying records again -/

namespace Core

variable {e t : Core} {r : WalRecord}

/-- An engine that is being opened has staged nothing. -/
theorem staged_of_epoch_zero (zero : e.epoch = 0) : e.staged = e.book :=
  Staging.staged_eq_book fun _ _ marked => marked.1 zero

/-- A slot for an account without one is a fresh entry in the book. -/
theorem book_slot_fresh (e : Core) (id : AccountID) (create : Bool) (k : AccountID) :
    ((e.slot id create).1.book).entry k = e.book.entry k := by
  rw [entry_book, entry_book, rowOf, rowOf, find_slot]
  split
  · rename_i h
    rw [h.2]
    cases e.table.find id <;> rfl
  · rfl

theorem version_accountFor (zero : e.epoch = 0) (id : AccountID) :
    (e.accountFor (e.table.slot id)).version = (e.book.entry id).account.version := by
  obtain ⟨x, account⟩ := e.accountFor_slot_eq id
  rw [account, staged_of_epoch_zero zero]

theorem version_otherSlot (zero : e.epoch = 0) (id : AccountID) :
    (e.accountFor (e.otherSlot id)).version = (e.book.peer id).account.version := by
  by_cases none : id = 0
  · simp [otherSlot, none, accountFor, Book.peer, Entry.fresh]
  · rw [otherSlot_of_ne e none, Book.peer_of_ne none, version_accountFor zero]

/-- A record does not tell whether its account already had a slot. -/
theorem bank_applyDurable_slot (create : Bool) (proper : r.Proper e.book) :
    r.Proper (e.slot r.a create).1.book ∧
      ((e.slot r.a create).1.applyDurable r).bank = e.bank.apply e.bounds.dedupeWindow r := by
  have entry := e.book_slot_fresh r.a create
  have proper' : r.Proper (e.slot r.a create).1.book :=
    ⟨proper.rejected, by rw [entry]; exact proper.known, by rw [entry]; exact proper.transfer⟩
  refine ⟨proper', ?_⟩
  have book : (e.slot r.a create).1.book.apply r = e.book.apply r := by
    funext k
    rw [Book.apply, Book.apply, entry]
    by_cases a : k = r.a
    · rw [if_pos a, if_pos a]
    · have same : (e.slot r.a create).1.book k = e.book k := by
        rw [Core.book, find_slot, if_neg fun h => a h.2, Core.book]
      rw [same]
  rw [bank_applyDurable proper', Bank.apply]
  change Bank.mk ((e.slot r.a create).1.book.apply r) _ _ _ = _
  rw [book]
  cases create <;> rfl

/-- A record that follows the bank of an engine is applied to it again. -/
theorem replay_follows (zero : e.epoch = 0) (follows : r.Follows e.bank) :
    ∃ t, e.replay r = .ok t ∧ t.bank = e.bank.apply e.bounds.dedupeWindow r ∧ t.epoch = 0 ∧
      e.SameHandle t := by
  obtain ⟨next, fresh, proper, expectedA, expectedB⟩ := follows
  let create := decide (r.effect = 1 ∧ r.accepted)
  obtain ⟨proper', bank⟩ := bank_applyDurable_slot create proper
  have entry := e.book_slot_fresh r.a create
  have zero' : (e.slot r.a create).1.epoch = 0 := by
    cases h : create <;> exact zero
  have new : e.retained.results[r.commandID]? = none := by
    rw [← Option.not_isSome_iff_eq_none, ← Std.ExtTreeMap.mem_iff_isSome_getElem?]
    exact fresh
  have versionA : ((e.slot r.a create).1.accountFor (e.slot r.a create).2).version =
      r.expectedA := by
    rw [expectedA]
    exact (version_accountFor zero' r.a).trans (by rw [entry]; rfl)
  have versionB : ((e.slot r.a create).1.accountFor
      ((e.slot r.a create).1.otherSlot r.b)).version = r.expectedB := by
    rw [expectedB, version_otherSlot zero', Book.peer, Book.peer, entry]
    rfl
  refine ⟨(e.slot r.a create).1.applyDurable r, ?_, bank, ?_, ?_⟩
  · have taken : e.applyRecovered r = .ok ((e.slot r.a create).1.applyDurable r) := by
      simp only [applyRecovered]
      rw [if_neg (by simp [new]),
        if_neg (by simp only [not_or, not_not]; exact ⟨versionA, versionB⟩)]
    rw [replay, if_neg (by exact not_not.mpr next), taken]
    rfl
  · rw [applyDurable_eq proper'.rejected]
    exact zero'
  · have same : e.SameHandle (e.slot r.a create).1 := by
      cases create <;> exact ⟨rfl, rfl, rfl, rfl⟩
    exact same.trans (sameHandle_applyDurable proper')

/-- Records that extend the bank of an engine are all applied to it again. -/
theorem replay_extends {rs : List WalRecord} (zero : e.epoch = 0)
    (following : e.bank.Extends e.bounds.dedupeWindow rs) :
    ∃ t, rs.foldlM replay e = .ok t ∧
      t.bank = rs.foldl (Bank.apply e.bounds.dedupeWindow) e.bank ∧ t.epoch = 0 ∧
      e.SameHandle t := by
  induction rs generalizing e with
  | nil => exact ⟨e, rfl, rfl, zero, ⟨rfl, rfl, rfl, rfl⟩⟩
  | cons r rs ih =>
    obtain ⟨follows, rest⟩ := following
    obtain ⟨t, first, bank, zero', same⟩ := replay_follows zero follows
    rw [← bank, ← same.bounds] at rest
    obtain ⟨u, later, bank', zero'', same'⟩ := ih zero' rest
    refine ⟨u, foldlM_cons_ok.mpr ⟨t, first, later⟩, ?_, zero'', same.trans same'⟩
    rw [bank', bank, same.bounds, List.foldl_cons]

end Core

/-! ## Banks that a snapshot can hold -/

/-- The ledger and the retained results are named and in the order of their sequences. -/
structure Bank.Sound (horizon : Nat) (bank : Bank) : Prop where
  ids : ∀ id entry, bank.book id = some entry → entry.account.id = id
  ledgerNamed : ∀ x ∈ bank.ledger, Named x.commandID
  ledgerOrder : (0 :: bank.ledger.map (·.sequence)).Pairwise (· < ·)
  ledgerLe : ∀ x ∈ bank.ledger, x.sequence ≤ bank.sequence
  consistent : bank.window.Consistent horizon
  results : ∀ id r, bank.window.dedupe[id]? = some r →
    r.commandID = id ∧ r.duplicate = false ∧ Named id ∧ r.sequence ≤ bank.sequence
  resultsOrder : (0 :: (bank.window.values {}).map (·.sequence)).Pairwise (· < ·)

theorem Bank.Sound.empty (horizon : Nat) : Bank.Sound horizon {} where
  ids := by simp
  ledgerNamed := by simp
  ledgerOrder := by simp
  ledgerLe := by simp
  consistent := .empty horizon
  results := by simp
  resultsOrder := by simp [Window.values]

namespace Bank.Sound

variable {horizon : Nat} {bank : Bank} {r : WalRecord}

theorem pairwise_concat {xs : List UInt64} {x : UInt64} (order : xs.Pairwise (· < ·))
    (last : ∀ y ∈ xs, y < x) : (xs ++ [x]).Pairwise (· < ·) :=
  List.pairwise_append.mpr ⟨order, List.pairwise_singleton _ _, fun y mem z mem' => by
    rw [List.mem_singleton.mp mem']; exact last y mem⟩

theorem mem_values (sound : bank.Sound horizon) {v : Result}
    (mem : v ∈ bank.window.values {}) : ∃ id : Bytes, bank.window.dedupe[id]? = some v := by
  obtain ⟨id, listed, rfl⟩ := List.mem_map.mp mem
  have known := (sound.consistent.mem_iff id).mpr listed
  obtain ⟨v, found⟩ := Option.isSome_iff_exists.mp
    (Std.ExtTreeMap.mem_iff_isSome_getElem?.mp known)
  exact ⟨id, by rw [Std.ExtTreeMap.getD_eq_getD_getElem?, found]; rfl⟩

theorem ids_apply (sound : bank.Sound horizon) (id : AccountID) (entry : Entry)
    (found : bank.book.apply r id = some entry) : entry.account.id = id := by
  have used (k : AccountID) : (bank.book.entry k).account.id = k := by
    rw [Book.entry]
    cases known : bank.book k with
    | none => rfl
    | some entry => exact sound.ids k entry known
  unfold Book.apply at found
  split at found
  · rename_i a
    obtain rfl := Option.some.inj found
    simp only [WalRecord.settle]
    split_ifs
    · exact a.symm
    all_goals exact used id
  · split at found
    · obtain ⟨old, known, rfl⟩ := Option.map_eq_some_iff.mp found
      unfold WalRecord.receive
      split <;> exact sound.ids id old known
    · exact sound.ids id entry found

theorem apply (sound : bank.Sound horizon) (pos : 0 < horizon) (follows : r.Follows bank)
    (named : Named r.commandID) (greater : bank.sequence < r.sequence) :
    (bank.apply horizon r).Sound horizon := by
  have positive : 0 < r.sequence := UInt64.lt_of_le_of_lt UInt64.zero_le greater
  have ledger : ∀ x ∈ r.entries, x = r.ledgerEntry := by
    intro x mem
    unfold WalRecord.entries at mem
    split at mem <;> simp_all
  constructor
  · exact sound.ids_apply
  · intro x mem
    rcases List.mem_append.mp mem with old | new
    · exact sound.ledgerNamed x old
    · rw [ledger x new]; exact named
  · have order := sound.ledgerOrder
    change (0 :: (bank.ledger ++ r.entries).map (·.sequence)).Pairwise (· < ·)
    unfold WalRecord.entries
    split
    · rw [List.map_append, ← List.cons_append]
      refine pairwise_concat order fun y mem => ?_
      rcases List.mem_cons.mp mem with rfl | mem
      · exact positive
      · obtain ⟨x, old, rfl⟩ := List.mem_map.mp mem
        exact UInt64.lt_of_le_of_lt (sound.ledgerLe x old) greater
    · simpa using order
  · intro x mem
    rcases List.mem_append.mp mem with old | new
    · exact UInt64.le_trans (sound.ledgerLe x old) (UInt64.le_of_lt greater)
    · rw [ledger x new]; exact UInt64.le_refl _
  · exact sound.consistent.retain follows.fresh pos
  · intro id v found
    rcases Window.getElem?_retain found with ⟨rfl, rfl⟩ | ⟨-, old⟩
    · exact ⟨rfl, rfl, named, UInt64.le_refl _⟩
    · obtain ⟨same, fresh, name, le⟩ := sound.results id v old
      exact ⟨same, fresh, name, UInt64.le_trans le (UInt64.le_of_lt greater)⟩
  · have order := sound.resultsOrder
    have below : ∀ y ∈ (bank.window.values {}).map (·.sequence), y < r.sequence := by
      intro y mem
      obtain ⟨v, old, rfl⟩ := List.mem_map.mp mem
      obtain ⟨id, found⟩ := sound.mem_values old
      exact UInt64.lt_of_le_of_lt (sound.results id v found).2.2.2 greater
    change (0 :: ((bank.window.retain horizon r.commandID r.result).values {}).map
      (·.sequence)).Pairwise (· < ·)
    rcases Window.values_retain (v := r.result) {} sound.consistent follows.fresh pos with
      same | ⟨-, same⟩
    · rw [same, List.map_append, ← List.cons_append]
      refine pairwise_concat order fun y mem => ?_
      rcases List.mem_cons.mp mem with rfl | mem
      · exact positive
      · exact below y mem
    · rw [same, List.map_append, ← List.cons_append, List.map_tail]
      have sub : (0 :: ((bank.window.values {}).map (·.sequence)).tail).Sublist
          (0 :: (bank.window.values {}).map (·.sequence)) := (List.tail_sublist _).cons_cons 0
      refine pairwise_concat (order.sublist sub) fun y mem => ?_
      rcases List.mem_cons.mp mem with rfl | mem
      · exact positive
      · exact below y (List.mem_of_mem_tail mem)

theorem foldl {rs : List WalRecord} (sound : bank.Sound horizon) (pos : 0 < horizon)
    (following : bank.Extends horizon rs) (named : ∀ r ∈ rs, Named r.commandID)
    (room : bank.sequence.toNat + rs.length < 2 ^ 64) :
    (rs.foldl (Bank.apply horizon) bank).Sound horizon := by
  induction rs generalizing bank with
  | nil => exact sound
  | cons r rs ih =>
    have greater := (following.within room (List.mem_cons_self)).1
    have first : bank.Extends horizon [r] := ⟨following.1, trivial⟩
    have count := first.count (by rw [List.length_cons] at room; simp; omega)
    obtain ⟨name, named⟩ := List.forall_mem_cons.mp named
    refine ih (sound.apply pos following.1 name greater) following.2 named ?_
    simp only [List.foldl_cons, List.foldl_nil, List.length_cons, List.length_nil] at count room
    omega

end Bank.Sound

end OctetDB.Accounts
