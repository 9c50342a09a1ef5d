import OctetDB.Accounts.Engine

/-!
# What the account engine is for

A book has an entry for every account ID that was used. Deciding a command reads a book, and
applying the record of the decision changes it. A bank is a book with the ledger, the retained
results and the sequence. The engine is a bank whose entries are spread over slots; applying a
record to the engine applies it to the bank.
-/

namespace OctetDB.Accounts

/-- The entries of the account IDs that were used. -/
def Book := AccountID → Option Entry

namespace Book

def entry (book : Book) (id : AccountID) : Entry := (book id).getD (.fresh id)

/-- The entry of the other account of a command; the ID zero stands for none. -/
def peer (book : Book) (id : AccountID) : Entry := if id = 0 then .fresh 0 else book.entry id

/-- The record of the decision on a command whose agent is in the given state. -/
def decideWith (book : Book) (agent : AgentState) (sequence : UInt64) (c : Command) : WalRecord :=
  decideRecord sequence c (book.entry c.account).account (book.entry c.account).present
    (book.peer c.other).account (book.peer c.other).present agent

def decide (book : Book) (sequence : UInt64) (c : Command) : WalRecord :=
  book.decideWith (book.entry c.account).agent sequence c

section Record

variable (book : Book) (sequence : UInt64) (c : Command)

@[simp] theorem decide_sequence : (book.decide sequence c).sequence = sequence := rfl
@[simp] theorem decide_commandID : (book.decide sequence c).commandID = c.id := rfl
@[simp] theorem decide_a : (book.decide sequence c).a = c.account := rfl
@[simp] theorem decide_b : (book.decide sequence c).b = c.other := rfl
@[simp] theorem decide_turns :
    (book.decide sequence c).turns = (book.entry c.account).agent.turns + 1 := rfl

end Record

end Book

/-- What a record leaves of the entry of its account. -/
def WalRecord.settle (r : WalRecord) (entry : Entry) : Entry where
  account :=
    if r.effect = 1 then r.created
    else if r.effect = 2 ∨ r.effect = 3 then entry.account.withBalance r.newBalanceA
    else if r.effect = 4 then entry.account.withStatus r.newStatus
    else entry.account
  present := entry.present || decide (r.effect = 1)
  agent := r.agent

/-- What a record leaves of the entry of its other account. -/
def WalRecord.receive (r : WalRecord) (entry : Entry) : Entry :=
  if r.effect = 3 then { entry with account := entry.account.withBalance r.newBalanceB }
  else entry

def Book.apply (book : Book) (r : WalRecord) : Book := fun id =>
  if id = r.a then some (r.settle (book.entry id))
  else if id = r.b then (book id).map r.receive
  else book id

structure Bank where
  book : Book := fun _ => none
  ledger : List LedgerEntry := []
  window : Window Result := {}
  sequence : UInt64 := 0

def WalRecord.entries (r : WalRecord) : List LedgerEntry :=
  if 1 ≤ r.effect ∧ r.effect ≤ 4 then [r.ledgerEntry] else []

def Bank.apply (horizon : Nat) (bank : Bank) (r : WalRecord) : Bank where
  book := bank.book.apply r
  ledger := bank.ledger ++ r.entries
  window := bank.window.retain horizon r.commandID r.result
  sequence := r.sequence

theorem Bank.foldl_apply (horizon : Nat) (rs : List WalRecord) (bank : Bank) :
    rs.foldl (Bank.apply horizon) bank =
      { book := rs.foldl Book.apply bank.book
        ledger := bank.ledger ++ rs.flatMap WalRecord.entries
        window := rs.foldl (fun w r => w.retain horizon r.commandID r.result) bank.window
        sequence := rs.foldl (fun _ r => r.sequence) bank.sequence } := by
  induction rs generalizing bank with
  | nil => simp
  | cons r rs ih => simp [ih, Bank.apply]

/-- A record that a decision on the book can have. -/
structure WalRecord.Proper (book : Book) (r : WalRecord) : Prop where
  rejected : r.accepted = false → r.effect = 0
  known : r.effect = 2 ∨ r.effect = 3 ∨ r.effect = 4 → (book.entry r.a).present = true
  transfer : r.effect = 3 → r.b ≠ 0 ∧ r.b ≠ r.a ∧ (book.entry r.b).present = true

/-! ## Decisions on a book -/

/-- A decision does not read the IDs of the accounts. -/
theorem decideRecord_ids (sequence : UInt64) (c : Command) (a : Account) (aok : Bool) (b : Account)
    (bok : Bool) (state : AgentState) (x y : AccountID) :
    decideRecord sequence c { a with id := x } aok { b with id := y } bok state =
      decideRecord sequence c a aok b bok state := by
  unfold decideRecord decideGo decideTransfer
  rfl

def Command.Valid (c : Command) : Prop := validateCommand c = .ok ()

instance (c : Command) : Decidable c.Valid := inferInstanceAs (Decidable (_ = _))

theorem Command.Valid.account_ne {c : Command} (valid : c.Valid) : c.account ≠ 0 := by
  unfold Valid validateCommand at valid
  grind

theorem Command.Valid.id_ne {c : Command} (valid : c.Valid) : c.id ≠ [] := by
  unfold Valid validateCommand at valid
  grind

theorem Command.Valid.other_ne {c : Command} (valid : c.Valid)
    (kind : c.kind = .transfer ∨ c.kind = .confirm) : c.other ≠ 0 ∧ c.other ≠ c.account := by
  unfold Valid validateCommand at valid
  grind

namespace Book

variable {book : Book}

theorem peer_of_ne {id : AccountID} (h : id ≠ 0) : book.peer id = book.entry id := if_neg h

theorem eq_some_of_present {id : AccountID} (h : (book.entry id).present = true) :
    book id = some (book.entry id) := by
  cases found : book id with
  | none => simp [entry, found, Entry.fresh] at h
  | some e => simp [entry, found]

/-- The record of a decision carries the decision. -/
theorem decideWith_spec (book : Book) (agent : AgentState) (sequence : UInt64) (c : Command) :
    ∃ d, Decided c (book.entry c.account).account (book.entry c.account).present
        (book.peer c.other).account (book.peer c.other).present d ∧
      (book.decideWith agent sequence c).accepted = d.accepted ∧
      (book.decideWith agent sequence c).effect = d.effect ∧
      (book.decideWith agent sequence c).newBalanceA = d.balanceA ∧
      (book.decideWith agent sequence c).newBalanceB = d.balanceB :=
  ⟨_, decideGo_spec c _ _ _ _ agent.pending, rfl, rfl, rfl, rfl⟩

theorem decideWith_proper {c : Command} (valid : c.Valid) (agent : AgentState)
    (sequence : UInt64) : (book.decideWith agent sequence c).Proper book := by
  obtain ⟨d, decided, accepted, effect, -, -⟩ := book.decideWith_spec agent sequence c
  have a : (book.decideWith agent sequence c).a = c.account := rfl
  have b : (book.decideWith agent sequence c).b = c.other := rfl
  constructor <;> rw [effect] <;> try rw [accepted]
  · cases decided <;> simp [unchanged]
  · rw [a]
    cases decided <;> simp_all [unchanged]
  · rw [a, b]
    cases decided with
    | transferred kind known peer =>
      intro _
      obtain ⟨nonzero, other⟩ := valid.other_ne kind
      exact ⟨nonzero, other, peer_of_ne nonzero ▸ peer⟩
    | _ => simp [unchanged]

end Book

/-! ## Books that show the same accounts -/

variable {stale : Set AccountID} {rs : List WalRecord}

namespace Book

variable {F G : Book} {r : WalRecord}

/-- The books have the same accounts, and outside `stale` also the same agents and used IDs. -/
structure Agree (stale : Set AccountID) (F G : Book) : Prop where
  account : ∀ id, (F.entry id).account = (G.entry id).account
  present : ∀ id, (F.entry id).present = (G.entry id).present
  fresh : ∀ id, id ∉ stale → F id = G id

theorem Agree.refl (stale : Set AccountID) (F : Book) : Agree stale F F :=
  ⟨fun _ => rfl, fun _ => rfl, fun _ _ => rfl⟩

theorem Agree.mono {wide : Set AccountID} (agree : Agree stale F G) (sub : stale ⊆ wide) :
    Agree wide F G :=
  ⟨agree.account, agree.present, fun id out => agree.fresh id fun h => out (sub h)⟩

theorem Agree.eq (agree : Agree ∅ F G) : F = G :=
  funext fun id => agree.fresh id (Set.notMem_empty id)

/-- A book with another agent agrees outside it. -/
theorem Agree.of_agent {a : AccountID} (agent : AgentState)
    (changed : ∀ k, G k = if k = a then some { F.entry a with agent := agent } else F k) :
    Agree {a} F G := by
  have entry (k : AccountID) :
      G.entry k = if k = a then { F.entry a with agent := agent } else F.entry k := by
    rw [Book.entry, changed]
    split <;> rfl
  refine ⟨fun k => ?_, fun k => ?_, fun k other => ?_⟩
  · rw [entry]; split <;> simp_all
  · rw [entry]; split <;> simp_all
  · rw [changed, if_neg (show k ≠ a from other)]

theorem Agree.peer_account (agree : Agree stale F G) (id : AccountID) :
    (F.peer id).account = (G.peer id).account ∧ (F.peer id).present = (G.peer id).present := by
  unfold peer
  split
  · exact ⟨rfl, rfl⟩
  · exact ⟨agree.account id, agree.present id⟩

/-- Books that agree lead to the same decisions. -/
theorem Agree.decideWith (agree : Agree stale F G) (agent : AgentState) (sequence : UInt64)
    (c : Command) :
    F.decideWith agent sequence c = G.decideWith agent sequence c := by
  obtain ⟨account, present⟩ := agree.peer_account c.other
  rw [Book.decideWith, Book.decideWith, agree.account, agree.present, account, present]

theorem Agree.proper (agree : Agree stale F G) (proper : r.Proper F) :
    r.Proper G := by
  obtain ⟨rejected, known, transfer⟩ := proper
  simp only [agree.present] at known transfer
  exact ⟨rejected, known, transfer⟩

theorem entry_apply (F : Book) (r : WalRecord) (id : AccountID) :
    (F.apply r).entry id = if id = r.a then r.settle (F.entry id)
      else if id = r.b ∧ (F id).isSome then r.receive (F.entry id) else F.entry id := by
  unfold entry Book.apply
  split
  · rfl
  · cases F id <;> by_cases b : id = r.b <;> simp [b]

theorem isSome_apply (book : Book) (r : WalRecord) (id : AccountID) :
    (book.apply r id).isSome ↔ id = r.a ∨ (book id).isSome := by
  unfold Book.apply
  split
  · simp [*]
  · rename_i other
    split <;> simp [other]

/-- A book knows the accounts of the records that were applied to it. -/
theorem isSome_foldl_apply (book : Book) (rs : List WalRecord) (id : AccountID) :
    (rs.foldl Book.apply book id).isSome ↔ id ∈ rs.map (·.a) ∨ (book id).isSome := by
  induction rs generalizing book with
  | nil => simp
  | cons r rs ih =>
    rw [List.foldl_cons, ih, isSome_apply, List.map_cons, List.mem_cons]
    tauto

/-- The account of a record is up to date after it. -/
theorem Agree.apply {stale : Set AccountID} (agree : Agree stale F G) (proper : r.Proper F) :
    Agree (stale \ {r.a}) (F.apply r) (G.apply r) := by
  have settled : (r.settle (F.entry r.a)) = r.settle (G.entry r.a) := by
    simp only [WalRecord.settle, agree.account, agree.present]
  have received (id : AccountID) (b : id = r.b) :
      (id = r.b ∧ (F id).isSome) ∧ (id = r.b ∧ (G id).isSome) ∨ ∀ e, r.receive e = e := by
    by_cases effect : r.effect = 3
    · left
      obtain ⟨-, -, present⟩ := proper.transfer effect
      have left := eq_some_of_present present
      have right := eq_some_of_present (agree.present r.b ▸ present)
      simp [b, left, right]
    · right
      simp [WalRecord.receive, effect]
  refine ⟨fun id => ?_, fun id => ?_, fun id out => ?_⟩
  · simp only [entry_apply]
    split
    · rename_i a; rw [a, settled]
    by_cases b : id = r.b
    · rcases received id b with ⟨left, right⟩ | keep
      · rw [if_pos left, if_pos right]
        simp only [WalRecord.receive]
        split <;> simp [agree.account]
      · simp only [keep, ite_self, agree.account]
    · simp only [b, false_and, if_false, agree.account]
  · simp only [entry_apply]
    split
    · rename_i a; rw [a, settled]
    have keep (e : Entry) : (r.receive e).present = e.present := by
      unfold WalRecord.receive; split <;> rfl
    split <;> split <;> simp only [keep, agree.present]
  · unfold Book.apply
    split
    · rename_i a; rw [a, settled]
    · rename_i other
      have same := agree.fresh id fun h => out ⟨h, other⟩
      rw [same]

/-- Every record is one that a decision on the book before it can have. -/
def ProperRun : Book → List WalRecord → Prop
  | _, [] => True
  | F, r :: rs => r.Proper F ∧ ProperRun (F.apply r) rs

theorem properRun_append {ts : List WalRecord} :
    F.ProperRun (rs ++ ts) ↔ F.ProperRun rs ∧ (rs.foldl Book.apply F).ProperRun ts := by
  induction rs generalizing F with
  | nil => simp [ProperRun]
  | cons r rs ih => simp [ProperRun, ih, and_assoc]

theorem Agree.properRun (agree : Agree stale F G) (run : F.ProperRun rs) : G.ProperRun rs := by
  induction rs generalizing stale F G with
  | nil => trivial
  | cons r rs ih => exact ⟨agree.proper run.1, ih (agree.apply run.1) run.2⟩

/-- Books that agree outside the accounts of some records are the same after the records. -/
theorem Agree.foldl_apply (agree : Agree {id | id ∈ rs.map (·.a)} F G) (run : F.ProperRun rs) :
    rs.foldl Book.apply F = rs.foldl Book.apply G := by
  induction rs generalizing F G with
  | nil => exact (agree.mono (by simp)).eq
  | cons r rs ih =>
    refine ih ((agree.apply run.1).mono ?_) run.2
    rintro id ⟨mem, other⟩
    simpa [show id ≠ r.a from other] using mem

end Book

end OctetDB.Accounts
