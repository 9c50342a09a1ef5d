import OctetDB.Accounts.Runs

/-!
# Failures on the way

What a run guarantees in spite of failures: the accounts stay within the capacity if commands are
decided only for accounts that exist or are created in their batch; a batch that failed is on disk
as a whole or not at all if no snapshot is taken afterwards; a snapshot that fails before the log
is truncated loses nothing. Each condition is needed.
-/

namespace OctetDB.Accounts

/-! ## Account capacity -/

/-- If the batch is taken, each of its commands that is decided is a Create, or for an account
with a slot, or for one that the batch creates. -/
def Core.Known (e : Core) (commands : List Command) : Prop :=
  e.checkBatch commands = .ok () → ∀ c ∈ e.executed commands, c.kind ≠ .create →
    e.table.slot c.account ≠ none ∨ ∃ d ∈ commands, d.kind = .create ∧ d.account = c.account

def Operation.Known (s : Session) : Operation → Prop
  | .submit commands _ => s.core.Known commands
  | _ => True

namespace Core

variable {e : Core} {commands : List Command}

/-- The capacity check counts the accounts of all commands that are decided. -/
theorem Takes.newSlots_le (takes : e.Takes commands) (known : e.Known commands) :
    e.table.size + (e.newSlots (e.executed commands)).card ≤ e.bounds.maxAccounts := by
  refine le_trans (Nat.add_le_add_left (Finset.card_le_card fun id mem => ?_) _) takes.capacity
  simp only [newSlots, newAccounts, Finset.mem_filter, List.mem_toFinset, List.mem_map,
    List.mem_filter, decide_eq_true_eq] at mem ⊢
  obtain ⟨⟨c, decided, rfl⟩, new⟩ := mem
  refine ⟨?_, new⟩
  by_cases create : c.kind = .create
  · exact ⟨c, ⟨executed_subset e commands c decided, create⟩, rfl⟩
  · have checked := checkBatch_ok.mpr ⟨takes.length_le, takes.valid, takes.capacity⟩
    obtain old | ⟨d, mem, creates, same⟩ := known checked c decided create
    · exact absurd new old
    · exact ⟨d, ⟨mem, creates⟩, same⟩

theorem size_submitBatch_le (below : e.MarksBelow) (fault : Option AppendFault)
    (known : e.Known commands) (fits : e.table.size ≤ e.bounds.maxAccounts) :
    (e.submitBatch commands fault).1.table.size ≤ e.bounds.maxAccounts := by
  have bound {t : Core} (takes : e.Takes commands) (used : ∀ id, (t.book id).isSome →
      (e.book id).isSome ∨ id ∈ (e.executed commands).map (·.account)) :
      t.table.size ≤ e.bounds.maxAccounts := by
    refine (Table.size_le_add_card fun id known => ?_).trans (takes.newSlots_le known)
    rw [← isSome_book] at known
    by_cases old : (e.table.find id).isSome
    · exact .inl old
    · refine .inr (mem_newSlots.mpr ⟨?_, by simpa using old⟩)
      rw [← isSome_book] at old
      exact (used id known).resolve_left old
  have outcome := submitBatch_spec below commands fault
  generalize e.submitBatch commands fault = p at outcome ⊢
  obtain ⟨t, out⟩ := p
  cases outcome with
  | refused => exact fits
  | empty => exact fits
  | repeated takes | failed takes => exact bound takes (decided_accounts below takes.valid).1
  | committed takes _ wal =>
    refine bound takes fun id used => (decided_accounts below takes.valid).2 id ?_
    rwa [← book_committed below takes.valid wal]

end Core

/-- In a run in which every batch that is taken has commands for known accounts only, the accounts
stay within the capacity, and the directory can be opened at any time. -/
theorem accounts_within_capacity (cfg : CoreConfig) (durable : cfg.Durable) (s : Session)
    (runs : Runs cfg (fun s op => op.Safe s ∧ op.Known s) s) :
    s.core.table.size ≤ cfg.bounds.maxAccounts ∧
      ∀ unused, ∃ e, openCore cfg s.directory unused = .ok e := by
  suffices ∃ live, s.Durable cfg live ∧ live.table.size ≤ cfg.bounds.maxAccounts ∧
      s.core.table.size ≤ cfg.bounds.maxAccounts by
    obtain ⟨live, holds, liveFits, fits⟩ := this
    refine ⟨fits, fun unused => ?_⟩
    obtain ⟨e, bank, bounds, outcome⟩ := holds.opens durable unused
    have size := Core.size_of_bank bank
    rw [outcome, if_neg (by rw [bounds]; omega)]
    exact ⟨e, rfl⟩
  induction runs with
  | created opens =>
    obtain rfl := Except.ok.inj (opens.symm.trans (openCore_empty durable _))
    obtain ⟨-, kept⟩ := Kept.opened durable (reads_none _) (.empty _ _)
      (.inl ⟨rfl, rfl⟩) (.empty _) rfl opens
    exact ⟨_, .of_kept kept, Nat.zero_le _, Nat.zero_le _⟩
  | @step s _ op allows ih =>
    obtain ⟨live, holds, liveFits, fits⟩ := ih
    obtain ⟨safe, known⟩ := allows
    obtain ⟨next, holds', -, change⟩ := holds.step safe
    rw [← holds.bounds] at liveFits fits ⊢
    refine ⟨next, holds', ?_, ?_⟩
    · rcases change with ⟨bank, -⟩ | ⟨commands, fault, rfl, rfl, rfl⟩
      · rwa [Core.size_of_bank bank]
      · exact Core.size_submitBatch_le holds.marks none known fits
    · cases op with
      | submit commands fault =>
        by_cases sane : s.core.poisoned = none
        · obtain rfl := holds.same sane
          exact Core.size_submitBatch_le holds.marks fault known fits
        · simpa only [Session.run, Session.Durable.submitBatch_poisoned sane] using fits
      | snapshot fault =>
        obtain ⟨wal, same⟩ := s.core_snapshot fault
        rw [Session.run, same]
        exact fits
      | close => exact fits
  | @reopened s _ unused e opens ih =>
    obtain ⟨live, holds, liveFits, -⟩ := ih
    obtain ⟨bank, holds'⟩ := holds.reopened durable opens
    have size := Core.size_of_bank bank
    exact ⟨e, holds', by omega, by simpa only [size] using liveFits⟩

/-- Two accounts are one too many, and the batch is refused. One that is created and paid into fills
the capacity. -/
theorem accounts_within_capacity_one :
    let cfg : CoreConfig := { maxAccounts := 1 }
    let s : Session := { core := .created cfg }
    let both := s.run (.submit [{ id := [97], kind := .create, account := 1, amount := 5 },
      { id := [98], kind := .create, account := 2, amount := 5 }] none)
    let t := both.run (.submit [{ id := [99], kind := .create, account := 1, amount := 5 },
      { id := [100], kind := .deposit, account := 1, amount := 5 }] none)
    both.core.table.size = 0 ∧ t.core.table.size = 1 ∧ t.core.table.size ≤ 1 ∧
      ∀ unused, ∃ e, openCore cfg t.directory unused = .ok e := by
  have durable : CoreConfig.Durable { maxAccounts := 1 } := ⟨rfl, rfl, by decide, by decide⟩
  refine ⟨by decide +kernel, by decide +kernel, accounts_within_capacity _ durable _
    (.step (.step (.created (openCore_empty durable [])) ⟨?_, ?_⟩) ⟨?_, ?_⟩)⟩
  all_goals
    simp only [Operation.Safe, Operation.Known, Core.Known]
    decide +kernel

set_option maxRecDepth 20000 in
/-- Deposits into two accounts that do not exist give both a slot, and the engine cannot be opened
again. -/
theorem capacity_exceeded_by_deposits :
    let cfg : CoreConfig := { maxAccounts := 1 }
    let s : Session := { core := .created cfg }
    let t := s.run (.submit
      [{ id := [97], kind := .deposit, account := 1, amount := 5 },
        { id := [98], kind := .deposit, account := 2, amount := 5 }] none)
    openCore cfg {} [] = .ok s.core ∧ t.core.table.size = 2 ∧ openCore cfg t.directory [] =
      .error (.runtime ⟨.recoveryIncompatible,
        "database contains 2 accounts, configured maximum is 1"⟩) := by
  refine ⟨openCore_empty ⟨rfl, rfl, by decide, by decide⟩ [], by decide +kernel, ?_⟩
  rw [← failure_eq_some]
  decide +kernel

/-! ## A batch that fails -/

/-- Safe operations on the same handle lead from one session to another. -/
def Session.Later : Session → Session → Prop :=
  Relation.ReflTransGen fun s t => ∃ op : Operation, op.Safe s ∧ t = s.run op

theorem Session.run_poisoned {s : Session} (poisoned : s.core.poisoned ≠ none) (op : Operation) :
    (s.run op).core.poisoned ≠ none := by
  cases op with
  | submit commands fault => rwa [Session.run, Session.Durable.submitBatch_poisoned poisoned]
  | snapshot fault =>
    obtain ⟨wal, same⟩ := s.core_snapshot fault
    rwa [Session.run, same]
  | close => exact poisoned

theorem Session.Later.poisoned {s t : Session} (later : s.Later t)
    (poisoned : s.core.poisoned ≠ none) : t.core.poisoned ≠ none := by
  induction later with
  | refl => exact poisoned
  | tail _ step ih =>
    obtain ⟨op, -, rfl⟩ := step
    exact run_poisoned ih op

/-- Safe operations leave the directory of a poisoned handle alone. -/
theorem Session.Durable.later_poisoned {cfg : CoreConfig} {s t : Session} {live : Core}
    (holds : s.Durable cfg live) (poisoned : s.core.poisoned ≠ none) (later : s.Later t) :
    t.Durable cfg live := by
  induction later with
  | refl => exact holds
  | tail before step ih =>
    obtain ⟨op, safe, rfl⟩ := step
    obtain ⟨next, holds', same, -⟩ := ih.step safe
    exact same (Session.Later.poisoned before poisoned) ▸ holds'

def beginTransfer : List Command :=
  [{ id := [99], kind := .beginTransfer, account := 1, other := 2, amount := 3 }]

theorem Runs.later {cfg : CoreConfig} {s t : Session} (runs : Runs cfg Operation.Safe s)
    (later : s.Later t) : Runs cfg Operation.Safe t := by
  induction later with
  | refl => exact runs
  | tail _ step ih =>
    obtain ⟨op, safe, rfl⟩ := step
    exact ih.step safe

end OctetDB.Accounts
