import OctetDB.Accounts.Refine
import OctetDB.Lib.Fold

/-!
# Deciding a batch

The commands of a batch are decided on the staged book. It shows the accounts as if the records
of the batch so far had been applied, but it knows the agent of an account without a slot only
from its creation on. The authoritative columns keep their accounts until the whole batch is
durable; then its records leave the bank as if the engine had never staged anything.
-/

namespace OctetDB.Accounts

variable {t : Core} {r : WalRecord} {F : Book} {agent : AgentState} {sequence : UInt64}

namespace Core

variable {e : Core} {id : AccountID} {row : Row}

/-- The engines differ in their rows only. -/
def RowsOnly (e t : Core) : Prop := t = { e with table := t.table }

theorem RowsOnly.trans {e u : Core} (first : e.RowsOnly t) (second : t.RowsOnly u) :
    e.RowsOnly u := by
  unfold RowsOnly at *
  rw [second, first]

theorem rowsOnly_slot (e : Core) (id : AccountID) (create : Bool) :
    e.RowsOnly (e.slot id create).1 := by
  cases create <;> rfl

/-! ## One decision -/

theorem stagedEntry_congr {e : Core} (same : e.epoch = t.epoch) (row : Row) :
    e.stagedEntry row = t.stagedEntry row :=
  if_congr (by rw [Marked, Marked, same]) rfl rfl

theorem staged_slot (e : Core) (id : AccountID) (create : Bool) (k : AccountID) :
    (e.slot id create).1.staged k =
      if create = true ∧ k = id then some (e.staged.entry id) else e.staged k := by
  have epoch : (e.slot id create).1.epoch = e.epoch := by cases create <;> rfl
  have fresh : e.stagedEntry (.fresh id) = .fresh id := if_neg fun h => h.1 h.2.symm
  rw [staged, find_slot, funext (stagedEntry_congr epoch), Book.entry, staged]
  split
  · cases e.table.find id <;> simp [fresh]
  · rfl

theorem book_slot (e : Core) (id : AccountID) (create : Bool) (k : AccountID) :
    (e.slot id create).1.book k =
      if create = true ∧ k = id then some (e.book.entry id) else e.book k := by
  rw [book, find_slot, Book.entry, book]
  split
  · cases e.table.find id <;> rfl
  · rfl

theorem staged_stage (epoch : e.epoch ≠ 0) (found : e.table.find id = some row) (a : Account)
    (k : AccountID) : (e.stage (e.table.slot id) a).staged k =
      if k = id then some ⟨a, true, row.agent⟩ else e.staged k := by
  have marked : e.Marked { row with scratch := a, mark := e.epoch } := ⟨epoch, rfl⟩
  rw [staged, stage, find_modifyRow found]
  split
  · simp only [Option.map_some, Option.some.injEq]
    exact if_pos marked
  · rfl

theorem book_stage (e : Core) (found : e.table.find id = some row) (a : Account) :
    (e.stage (e.table.slot id) a).book = e.book := by
  funext k
  rw [book, stage, find_modifyRow found, book]
  split
  · rename_i same; rw [same, found]; rfl
  · rfl

theorem slot_stage (e : Core) (slot : Option Nat) (a : Account) (id : AccountID) :
    (e.stage slot a).table.slot id = e.table.slot id := rfl

theorem accountFor_found (found : e.table.find id = some row) :
    e.accountFor (some ((e.table.slot id).getD 0)) = (e.stagedEntry row).account := by
  rw [accountFor, Option.bind_some, row_slot found]
  simp only [stagedEntry]
  split <;> rfl

theorem agent_stagedEntry (e : Core) (row : Row) : (e.stagedEntry row).agent = row.agent := by
  unfold stagedEntry
  split <;> rfl

/-- Staging the effect of a record stages what it leaves of the accounts. -/
theorem staged_stageEffect (epoch : e.epoch ≠ 0) (found : e.table.find r.a = some row)
    (proper : r.Proper e.staged) (k : AccountID) :
    (e.stageEffect (e.table.slot r.a) (e.otherSlot r.b) r).staged k =
      if k = r.a then some { r.settle (e.stagedEntry row) with agent := row.agent }
      else if k = r.b then (e.staged k).map r.receive
      else e.staged k := by
  have here : e.staged r.a = some (e.stagedEntry row) := by rw [staged, found]; rfl
  have entry : e.staged.entry r.a = e.stagedEntry row := by rw [Book.entry, here]; rfl
  have kept (h : r.effect ≠ 3) (o : Option Entry) : o.map r.receive = o := by
    cases o <;> simp [WalRecord.receive, h]
  have known := proper.known
  rw [entry] at known
  simp only [stageEffect, accountFor_found found]
  by_cases one : r.effect = 1
  · rw [if_pos one, staged_stage epoch found]
    simp [WalRecord.settle, kept (by rw [one]; decide), one]
  by_cases two : r.effect = 2
  · rw [if_neg one, if_pos two, staged_stage epoch found]
    simp [WalRecord.settle, kept (by rw [two]; decide), two, known (.inl two)]
  by_cases three : r.effect = 3
  · obtain ⟨nonzero, other, present⟩ := proper.transfer three
    obtain ⟨rowB, foundB, seenB⟩ := Option.map_eq_some_iff.mp (Book.eq_some_of_present present)
    rw [if_neg one, if_neg two, if_pos three, otherSlot_of_ne e nonzero, accountFor_found foundB]
    have stagedA := staged_stage epoch found ((e.stagedEntry row).account.withBalance r.newBalanceA)
    have foundB' : (e.stage (e.table.slot r.a)
        ((e.stagedEntry row).account.withBalance r.newBalanceA)).table.find r.b = some rowB := by
      rw [stage, find_modifyRow found, if_neg other, foundB]
    have second := staged_stage (e := e.stage _ _) epoch foundB'
      ((e.stagedEntry rowB).account.withBalance r.newBalanceB) k
    rw [slot_stage] at second
    rw [second, stagedA]
    by_cases a : k = r.a
    · simp [a, Ne.symm other, WalRecord.settle, three, known (.inr (.inl three))]
    · by_cases b : k = r.b
      · rw [← seenB] at present
        simp [b, other, staged, foundB, WalRecord.receive, three, present, agent_stagedEntry]
      · simp [a, b]
  by_cases four : r.effect = 4
  · rw [if_neg one, if_neg two, if_neg three, if_pos four, staged_stage epoch found]
    simp [WalRecord.settle, kept three, four, known (.inr (.inr four))]
  · rw [if_neg one, if_neg two, if_neg three, if_neg four]
    by_cases a : k = r.a
    · simp [a, here, WalRecord.settle, one, two, three, four, ← e.agent_stagedEntry row]
    · simp [a, kept three]

theorem book_stageEffect (found : e.table.find r.a = some row) (proper : r.Proper e.staged) :
    (e.stageEffect (e.table.slot r.a) (e.otherSlot r.b) r).book = e.book := by
  unfold stageEffect
  split_ifs with one two three
  · exact book_stage e found _
  · exact book_stage e found _
  · obtain ⟨nonzero, other, present⟩ := proper.transfer three
    obtain ⟨rowB, foundB, -⟩ := Option.map_eq_some_iff.mp (Book.eq_some_of_present present)
    simp only [otherSlot_of_ne e nonzero]
    refine (book_stage (e.stage _ _) (?_ : _ = some rowB) _).trans (book_stage e found _)
    rw [stage, find_modifyRow found, if_neg other, foundB]
  · exact book_stage e found _
  · rfl

theorem stageEffect_rowsOnly (e : Core) (aSlot bSlot : Option Nat) (r : WalRecord) :
    e.RowsOnly (e.stageEffect aSlot bSlot r) ∧
      ∀ id, (e.stageEffect aSlot bSlot r).table.slot id = e.table.slot id := by
  unfold stageEffect
  split_ifs <;> exact ⟨rfl, fun _ => rfl⟩

theorem stageEffect_of_zero (none : r.effect = 0) (aSlot bSlot : Option Nat) :
    e.stageEffect aSlot bSlot r = e := by
  simp [stageEffect, none]

theorem entry_staged_slot (e : Core) (id : AccountID) (create : Bool) :
    (e.slot id create).1.staged.entry = e.staged.entry := by
  funext k
  rw [Book.entry, staged_slot]
  split
  · rename_i h; rw [h.2]; rfl
  · rfl

theorem stagedEntry_withAgent (e : Core) (row : Row) (agent : AgentState) :
    e.stagedEntry { row with agent := agent } = { e.stagedEntry row with agent := agent } := by
  by_cases marked : e.Marked row
  · rw [stagedEntry, stagedEntry, if_pos marked]
    exact if_pos marked
  · rw [stagedEntry, stagedEntry, if_neg marked]
    exact if_neg marked

theorem staged_setAgent (found : e.table.find id = some row) (agent : AgentState) (k : AccountID) :
    (e.setAgent (e.table.slot id) agent).staged k =
      if k = id then some { e.stagedEntry row with agent := agent } else e.staged k := by
  rw [staged, setAgent, find_modifyRow found]
  split
  · rw [Option.map_some, stagedEntry_congr (epoch_modifyRow _ _ _), stagedEntry_withAgent]
  · rfl

theorem book_setAgent (found : e.table.find id = some row) (agent : AgentState) (k : AccountID) :
    (e.setAgent (e.table.slot id) agent).book k =
      if k = id then some { row.toEntry with agent := agent } else e.book k := by
  rw [book, setAgent, find_modifyRow found]
  split <;> rfl

/-- The engine before the agent of a decision is kept. -/
theorem stage_accepted (epoch : e.epoch ≠ 0) (found : e.table.find r.a = some row)
    (proper : r.Proper e.staged)
    (eq : t = if r.accepted then e.stageEffect (e.table.slot r.a) (e.otherSlot r.b) r else e) :
    e.RowsOnly t ∧ t.table.slot r.a = e.table.slot r.a ∧ t.book = e.book ∧
      ∀ k, t.staged k =
        if k = r.a then some { r.settle (e.stagedEntry row) with agent := row.agent }
        else if k = r.b then (e.staged k).map r.receive else e.staged k := by
  subst eq
  cases accepted : r.accepted with
  | true =>
    obtain ⟨frame, slots⟩ := e.stageEffect_rowsOnly (e.table.slot r.a) (e.otherSlot r.b) r
    exact ⟨frame, slots r.a, book_stageEffect found proper, staged_stageEffect epoch found proper⟩
  | false =>
    have none := proper.rejected accepted
    have same := staged_stageEffect epoch found proper
    rw [stageEffect_of_zero none] at same
    exact ⟨rfl, rfl, rfl, same⟩

/-- A decision on an account with a slot is applied to the staged book. Of the authoritative
columns it changes the agent. -/
theorem stageDecision_known (epoch : e.epoch ≠ 0) (found : e.table.find r.a = some row)
    (proper : r.Proper e.staged) (eq : t = e.stageDecision (e.table.slot r.a) (e.otherSlot r.b) r) :
    e.RowsOnly t ∧ t.staged = e.staged.apply r ∧
      ∀ k, t.book k = if k = r.a then some { row.toEntry with agent := r.agent } else e.book k := by
  obtain ⟨frame, slots, book, staged⟩ := stage_accepted epoch found proper rfl
  have known : (e.table.slot r.a).isSome = true := by rw [← Table.find_isSome, found]; rfl
  simp only [stageDecision, known, if_true] at eq
  generalize (if r.accepted then e.stageEffect (e.table.slot r.a) (e.otherSlot r.b) r else e) = u
    at eq frame slots book staged
  have entry : e.staged.entry r.a = e.stagedEntry row := by
    rw [Book.entry, Core.staged, found]; rfl
  obtain ⟨rowU, foundU, seenU⟩ := Option.map_eq_some_iff.mp ((staged r.a).trans (if_pos rfl))
  have agentU : rowU.agent = row.agent := by rw [← u.agent_stagedEntry, seenU]
  rw [← slots] at eq
  subst eq
  refine ⟨?_, funext fun k => ?_, fun k => ?_⟩
  · exact frame.trans rfl
  · rw [staged_setAgent foundU, seenU, staged, Book.apply]
    by_cases a : k = r.a
    · simp [a, entry, WalRecord.settle]
    · simp [a]
  · rw [book_setAgent foundU, book]
    have same : some rowU.toEntry = some row.toEntry := by
      have := congrFun book r.a
      rwa [Core.book, Core.book, foundU, found] at this
    rw [Option.some.inj same]

end Core

/-- The staged book after the decision on a command. The decision on an account without a slot
leaves no trace, unless it was to create the account. -/
def Book.stage (book : Book) (c : Command) (r : WalRecord) : Book :=
  if (book c.account).isSome ∨ c.kind = .create then book.apply r else book

theorem Book.decide_congr {G : Book} (same : F.entry = G.entry) (sequence : UInt64) (c : Command) :
    F.decide sequence c = G.decide sequence c := by
  simp only [Book.decide, Book.decideWith, Book.peer, same]

/-- Only the decision to create an account has the effect of creating it. -/
theorem Book.kind_of_effect {c : Command} (one : (F.decideWith agent sequence c).effect = 1) :
    c.kind = .create := by
  obtain ⟨d, decided, -, effect, -, -⟩ := F.decideWith_spec agent sequence c
  rw [effect] at one
  cases decided <;> simp_all [unchanged]

theorem Book.effect_le {c : Command} :
    let effect := (F.decideWith agent sequence c).effect
    effect = 0 ∨ effect = 1 ∨ effect = 2 ∨ effect = 3 ∨ effect = 4 := by
  obtain ⟨d, decided, -, effect, -, -⟩ := F.decideWith_spec agent sequence c
  simp only [effect]
  cases decided <;> simp [unchanged]

/-- The record of a decision on an ID that was not used, unless it is to be created. -/
theorem Book.effect_of_unused {c : Command} (valid : c.Valid) (unused : F c.account = none)
    (kind : c.kind ≠ .create) :
    (F.decideWith agent sequence c).effect = 0 := by
  have known := (F.decideWith_proper valid agent sequence).known
  have absent : (F.entry (F.decideWith agent sequence c).a).present = false := by
    change (F.entry c.account).present = false
    rw [Book.entry, unused]
    rfl
  rw [absent] at known
  rcases F.effect_le (c := c) with h | h | h | h | h
  · exact h
  · exact absurd (Book.kind_of_effect h) kind
  · exact absurd (known (.inl h)) (by simp)
  · exact absurd (known (.inr (.inl h))) (by simp)
  · exact absurd (known (.inr (.inr h))) (by simp)

namespace BatchState

variable {s : BatchState} {c : Command}

def record (s : BatchState) (c : Command) : WalRecord :=
  s.core.staged.decide (s.core.sequence + UInt64.ofNat s.records.length + 1) c

/-- The engine with a slot for the account of a command that is to create it. -/
def slotted (s : BatchState) (c : Command) : Core := (s.core.slot c.account (c.kind = .create)).1

theorem decide_eq (s : BatchState) (c : Command) :
    s.decide c =
      { core := (s.slotted c).stageDecision ((s.slotted c).table.slot c.account)
          ((s.slotted c).otherSlot c.other) (s.record c)
        records := s.records ++ [s.record c]
        results := s.results ++ [(s.record c).result]
        batchIDs := s.batchIDs.insert c.id s.results.length } := by
  have sequence : (s.slotted c).sequence = s.core.sequence := by
    rw [slotted, s.core.rowsOnly_slot c.account (c.kind = .create)]
  have decided := (s.slotted c).decideRecord_staged
    ((s.slotted c).sequence + UInt64.ofNat s.records.length + 1) c
  have entries : (s.slotted c).staged.entry = s.core.staged.entry := s.core.entry_staged_slot _ _
  rw [Book.decide_congr entries, sequence] at decided
  rw [record, ← decided, ← sequence]
  rfl

theorem core_decide (valid : c.Valid) (epoch : s.core.epoch ≠ 0) :
    (s.decide c).core.staged = s.core.staged.stage c (s.record c) ∧
      Book.Agree {c.account} s.core.book (s.decide c).core.book ∧
      s.core.RowsOnly (s.decide c).core := by
  have frame : s.core.RowsOnly (s.slotted c) := s.core.rowsOnly_slot _ _
  have entries : (s.slotted c).staged.entry = s.core.staged.entry := s.core.entry_staged_slot _ _
  have proper : (s.record c).Proper (s.slotted c).staged := by
    rw [record, ← Book.decide_congr entries]
    exact Book.decideWith_proper valid _ _
  have stagedBook (k : AccountID) : (s.slotted c).staged k = _ :=
    s.core.staged_slot c.account (c.kind = .create) k
  have books (k : AccountID) : (s.slotted c).book k = _ :=
    s.core.book_slot c.account (c.kind = .create) k
  rw [decide_eq, Book.stage]
  split <;> rename_i kept
  · obtain ⟨row, found⟩ : ∃ row, (s.slotted c).table.find c.account = some row := by
      have used : ((s.slotted c).staged c.account).isSome := by
        rw [stagedBook]
        by_cases create : c.kind = .create
        · simp [create]
        · simpa [create] using kept
      rwa [Core.staged, Option.isSome_map, Option.isSome_iff_exists] at used
    obtain ⟨core, staged, book⟩ := Core.stageDecision_known (r := s.record c)
      (by rw [frame]; exact epoch) found proper rfl
    refine ⟨?_, ?_, ?_⟩
    · refine staged.trans (funext fun k => ?_)
      rw [Book.apply, Book.apply, entries, stagedBook]
      by_cases a : k = c.account
      · rw [if_pos (show k = (s.record c).a from a), if_pos (show k = (s.record c).a from a)]
      · simp [a]
    · have here : row.toEntry = s.core.book.entry c.account := by
        have := books c.account
        rw [Core.book, found] at this
        by_cases create : c.kind = .create
        · simpa [create] using this
        · rw [if_neg (by simp [create])] at this
          rw [Book.entry, ← this]; rfl
      refine .of_agent (s.record c).agent fun k => ?_
      refine (book k).trans ?_
      rw [here, books]
      by_cases a : k = c.account
      · rw [if_pos a, if_pos (show k = (s.record c).a from a)]
      · rw [if_neg a, if_neg (show k ≠ (s.record c).a from a), if_neg (by simp [a])]
    · exact frame.trans core
  · obtain ⟨unused, create⟩ := not_or.mp kept
    have unused : s.core.staged c.account = none := by simpa using unused
    have same : s.slotted c = s.core := by simp [slotted, Core.slot, create]
    have zero : (s.record c).effect = 0 := Book.effect_of_unused valid unused create
    have slotless : s.core.table.slot c.account = none := by
      rw [Core.staged, Option.map_eq_none_iff] at unused
      rw [← Option.not_isSome_iff_eq_none, ← Table.find_isSome, unused]
      simp
    have core : s.core.stageDecision (s.core.table.slot c.account)
        (s.core.otherSlot c.other) (s.record c) = s.core := by
      simp [Core.stageDecision, slotless, Core.stageEffect_of_zero zero]
    simp only [same, core]
    exact ⟨trivial, .refl _ _, rfl⟩

end BatchState

/-! ## Marks -/

namespace Core

variable {e : Core}

/-- No row has a mark of a later batch. -/
def MarksBelow (e : Core) : Prop := e.table.All fun row => row.mark ≤ e.epoch

section

variable (below : e.MarksBelow)
include below

theorem MarksBelow.slot (id : AccountID) (create : Bool) :
    (e.slot id create).1.MarksBelow := by
  cases create with
  | false => exact below
  | true => exact below.ensure id (UInt32.zero_le)

theorem MarksBelow.modifyRow (slot : Option Nat) {f : Row → Row}
    (keeps : ∀ row, row.mark ≤ e.epoch → (f row).mark ≤ e.epoch) :
    (e.modifyRow slot f).MarksBelow :=
  below.modify _ keeps

theorem MarksBelow.stage (slot : Option Nat) (a : Account) :
    (e.stage slot a).MarksBelow :=
  below.modifyRow slot fun _ _ => UInt32.le_refl _

theorem MarksBelow.stageEffect (aSlot bSlot : Option Nat)
    (r : WalRecord) : (e.stageEffect aSlot bSlot r).MarksBelow := by
  simp only [Core.stageEffect]
  split
  · exact below.stage _ _
  split
  · exact below.stage _ _
  split
  · exact (below.stage _ _).stage _ _
  split
  · exact below.stage _ _
  · exact below

theorem MarksBelow.stageDecision (aSlot bSlot : Option Nat)
    (r : WalRecord) : (e.stageDecision aSlot bSlot r).MarksBelow := by
  have effect : (if r.accepted then e.stageEffect aSlot bSlot r else e).MarksBelow := by
    split
    · exact below.stageEffect _ _ _
    · exact below
  simp only [Core.stageDecision]
  split
  · exact effect.modifyRow _ fun _ h => h
  · exact effect

theorem MarksBelow.applyEffect (aSlot bSlot : Option Nat)
    (r : WalRecord) : (e.applyEffect aSlot bSlot r).MarksBelow := by
  have store {e : Core} (below : e.MarksBelow) (slot : Option Nat) (a : Account) :
      (e.store slot a).MarksBelow := below.modifyRow slot fun _ h => h
  have write : (e.writeEffect aSlot bSlot r).MarksBelow := by
    simp only [writeEffect]
    split
    · exact below.modifyRow _ fun _ h => h
    split
    · exact store below _ _
    split
    · exact store (store below _ _) _ _
    split
    · exact store below _ _
    · exact below
  unfold Core.applyEffect
  split <;> exact write

theorem MarksBelow.applyDurable (r : WalRecord) :
    (e.applyDurable r).MarksBelow := by
  have created := below.slot r.a true
  simp only [Core.applyDurable]
  split
  · exact (created.applyEffect _ _ _).modifyRow _ fun _ h => h
  · exact created.modifyRow _ fun _ h => h

/-- The epoch of the next batch marks no row, also when the epochs start over. -/
theorem MarksBelow.nextEpoch :
    e.nextEpoch.epoch ≠ 0 ∧ e.nextEpoch.MarksBelow ∧
      e.nextEpoch.table.All fun row => ¬ e.nextEpoch.Marked row := by
  unfold Core.nextEpoch
  split
  · refine ⟨show (1 : UInt32) ≠ 0 by decide, ?_, ?_⟩
    · exact @Table.All.map _ _ _ _ (fun row : Row => row.mark ≤ 1) below _ fun _ _ => UInt32.zero_le
    · exact @Table.All.map _ _ _ _ (fun row : Row => ¬ ((1 : UInt32) ≠ 0 ∧ row.mark = 1)) below _
        fun _ _ marked => absurd (show (0 : UInt32) = 1 from marked.2) (by decide)
  · rename_i more
    have next : e.epoch < e.epoch + 1 := by
      have := e.epoch.toNat_lt
      have ne : e.epoch.toNat ≠ 4294967295 := fun h => more (UInt32.toNat_inj.mp (by simpa using h))
      rw [UInt32.lt_iff_toNat_lt, UInt32.toNat_add]
      simp
      omega
    refine ⟨fun zero => ?_, below.imp fun _ h => UInt32.le_of_lt (UInt32.lt_of_le_of_lt h next),
      below.imp fun row h marked => ?_⟩
    · rw [show e.epoch + 1 = 0 from zero] at next
      exact absurd next (by simp)
    · have same : row.mark = e.epoch + 1 := marked.2
      rw [same] at h
      exact absurd (UInt32.lt_of_le_of_lt h next) (UInt32.lt_irrefl _)

end

end Core

end OctetDB.Accounts
