import OctetDB.Lib.Book
import OctetDB.Trust.Ledger

/-!
# The authorities as a book of transfers

The records of the authorities say how far each transfer is. Every operation on an authority either
leaves the book as it is or is one of its moves, provided that a transfer is credited only after it
was debited. So the sums of the book carry over to balances and reservations.
-/

namespace OctetDB.Trust

open Function (update update_eq_self update_of_ne update_self)

/-- The transfers of a simulation. -/
structure Workload where
  count : Nat
  attempt : Fin count → Attempt
  distinct : Function.Injective fun i => (attempt i).id

namespace Workload

def terms (W : Workload) : Terms String (Fin W.count) where
  payer i := (W.attempt i).fromBSO
  payee i := (W.attempt i).toBSO
  amount i := (W.attempt i).amount

theorem id_ne (W : Workload) {i j : Fin W.count} (ne : j ≠ i) :
    (W.attempt j).id ≠ (W.attempt i).id :=
  fun same => ne (W.distinct same)

end Workload

/-- How far a transfer is, by the records of its sender and its receiver. -/
def stageOf (out inc : Option Transfer) : Stage :=
  match out with
  | none => .idle
  | some t =>
    match t.state with
    | .reserved => .held
    | .committed | .acknowledged => if inc.any Transfer.creditApplied then .settled else .moving
    | _ => .idle

theorem stageOf_eq_held {out inc : Option Transfer} :
    stageOf out inc = .held ↔ out.any fun t => t.state = .reserved := by
  cases out with
  | none => simp [stageOf]
  | some t =>
    unfold stageOf
    cases state : t.state <;> simp [state]
    all_goals split_ifs <;> simp

def Workload.book (W : Workload) (bsos : String → BSO) : TransferBook String (Fin W.count) where
  funds name := (bsos name).balance
  stage i := stageOf ((bsos (W.attempt i).fromBSO).outgoing (W.attempt i).id)
    ((bsos (W.attempt i).toBSO).incoming (W.attempt i).id)

/-- The sender has committed the transfer. -/
def Paid (bsos : String → BSO) (a : Attempt) : Prop :=
  ∃ t, (bsos a.fromBSO).outgoing a.id = some t ∧
    (t.state = .committed ∨ t.state = .acknowledged)

namespace BSO

/-- How often the authority was debited for the transfer. -/
def debits (b : BSO) (id : String) : Nat :=
  b.audit.countP fun entry => entry.transferID = id ∧ entry.delta < 0

/-- How often the authority was credited for the transfer. -/
def credits (b : BSO) (id : String) : Nat :=
  b.audit.countP fun entry => entry.transferID = id ∧ 0 < entry.delta

end BSO

/-- The records, the audits and the money of all authorities fit together. -/
structure Ledger (W : Workload) (initial : String → Int) (bsos : String → BSO) : Prop where
  named : ∀ name, (bsos name).id = name
  sends : ∀ name id t, (bsos name).outgoing id = some t →
    ∃ i, (W.attempt i).id = id ∧ (W.attempt i).fromBSO = name ∧ t.Sends (W.attempt i)
  receives : ∀ name id t, (bsos name).incoming id = some t →
    ∃ i, (W.attempt i).id = id ∧ (W.attempt i).toBSO = name ∧ t.Receives (W.attempt i)
  paid : ∀ i t, (bsos (W.attempt i).toBSO).incoming (W.attempt i).id = some t →
    t.state = .committed → Paid bsos (W.attempt i)
  reserved : ∀ name, (bsos name).reserved = (W.book bsos).heldBy W.terms name
  debits : ∀ name id, (bsos name).debits id =
    if ((bsos name).outgoing id).any Transfer.debitApplied then 1 else 0
  credits : ∀ name id, (bsos name).credits id =
    if ((bsos name).incoming id).any Transfer.creditApplied then 1 else 0
  solvent : ∀ name, 0 ≤ initial name → 0 ≤ (bsos name).balance
  total : ∀ accounts : Finset String, (∀ i, (W.attempt i).fromBSO ∈ accounts) →
    (∀ i, (W.attempt i).toBSO ∈ accounts) →
    (W.book bsos).total W.terms accounts = ∑ name ∈ accounts, initial name

variable {t : Transfer}

namespace Ledger

variable {W : Workload} {initial : String → Int} {bsos : String → BSO} {i : Fin W.count} {b' : BSO}

section

variable (ledger : Ledger W initial bsos)
include ledger

theorem sendsAt (i : Fin W.count) (name : String) (t : Transfer)
    (found : (bsos name).outgoing (W.attempt i).id = some t) : t.Sends (W.attempt i) := by
  obtain ⟨j, id, -, record⟩ := ledger.sends name _ t found
  exact W.distinct id ▸ record

theorem sendsOf {a : Attempt} (own : a = W.attempt i)
    {name : String} : ∀ t, (bsos name).outgoing a.id = some t → t.Sends a :=
  own ▸ ledger.sendsAt i name

theorem receivesAt (i : Fin W.count) (name : String)
    (t : Transfer) (found : (bsos name).incoming (W.attempt i).id = some t) :
    t.Receives (W.attempt i) := by
  obtain ⟨j, id, -, record⟩ := ledger.receives name _ t found
  exact W.distinct id ▸ record

/-- Only transfers of something are ever taken up. -/
theorem positive : (W.book bsos).Positive W.terms := by
  intro i taken
  cases found : (bsos (W.attempt i).fromBSO).outgoing (W.attempt i).id with
  | none => simp [Workload.book, stageOf, found] at taken
  | some t =>
    refine (ledger.sendsAt i _ t found).positive fun rejected => ?_
    simp [Workload.book, stageOf, found, rejected] at taken

end

/-! ### Updates of one authority -/

/-- The book after the record of the sender of a transfer has changed. -/
theorem book_outgoing (out : b'.outgoing =
      update (bsos (W.attempt i).fromBSO).outgoing (W.attempt i).id (some t))
    (inc : b'.incoming = (bsos (W.attempt i).fromBSO).incoming) :
    W.book (update bsos (W.attempt i).fromBSO b') =
      { funds := update (W.book bsos).funds (W.attempt i).fromBSO b'.balance
        stage := update (W.book bsos).stage i (stageOf (some t)
          ((bsos (W.attempt i).toBSO).incoming (W.attempt i).id)) } := by
  have incoming : ∀ name, (update bsos (W.attempt i).fromBSO b' name).incoming =
      (bsos name).incoming := by
    intro name
    by_cases same : name = (W.attempt i).fromBSO
    · rw [same, update_self, inc]
    · rw [update_of_ne same]
  unfold Workload.book
  congr 1
  · funext name
    by_cases same : name = (W.attempt i).fromBSO
    · rw [same, update_self, update_self]
    · rw [update_of_ne same, update_of_ne same]
  · funext j
    rw [incoming]
    by_cases same : j = i
    · rw [same, update_self, update_self, out, update_self]
    · rw [update_of_ne same]
      by_cases sender : (W.attempt j).fromBSO = (W.attempt i).fromBSO
      · rw [sender, update_self, out, update_of_ne (W.id_ne same)]
        simp only [sender]
      · rw [update_of_ne sender]

theorem outgoing_update {name : String} (out : b'.outgoing = (bsos name).outgoing)
    (other : String) : (update bsos name b' other).outgoing = (bsos other).outgoing := by
  by_cases same : other = name
  · rw [same, update_self, out]
  · rw [update_of_ne same]

/-- The book after the record of the receiver of a transfer has changed. -/
theorem book_incoming (inc : b'.incoming =
      update (bsos (W.attempt i).toBSO).incoming (W.attempt i).id (some t))
    (out : b'.outgoing = (bsos (W.attempt i).toBSO).outgoing) :
    W.book (update bsos (W.attempt i).toBSO b') =
      { funds := update (W.book bsos).funds (W.attempt i).toBSO b'.balance
        stage := update (W.book bsos).stage i (stageOf
          ((bsos (W.attempt i).fromBSO).outgoing (W.attempt i).id) (some t)) } := by
  have outgoing := outgoing_update out
  unfold Workload.book
  congr 1
  · funext name
    by_cases same : name = (W.attempt i).toBSO
    · rw [same, update_self, update_self]
    · rw [update_of_ne same, update_of_ne same]
  · funext j
    rw [outgoing]
    by_cases same : j = i
    · rw [same, update_self, update_self, inc, update_self]
    · rw [update_of_ne same]
      by_cases receiver : (W.attempt j).toBSO = (W.attempt i).toBSO
      · rw [receiver, update_self, inc, update_of_ne (W.id_ne same)]
        simp only [receiver]
      · rw [update_of_ne receiver]

/-- What the database knows of commands is not part of the ledger. -/
theorem forget (ledger : Ledger W initial bsos) (name : String)
    (d : Command → Option TransferState) :
    Ledger W initial (update bsos name { bsos name with decided := d }) := by
  have eq : update bsos name { bsos name with decided := d } = fun other =>
      { bsos other with decided := if other = name then d else (bsos other).decided } := by
    funext other
    by_cases same : other = name
    · rw [same, update_self, if_pos rfl]
    · rw [update_of_ne same, if_neg same]
  rw [eq]
  exact ⟨ledger.named, ledger.sends, ledger.receives, ledger.paid, ledger.reserved, ledger.debits,
    ledger.credits, ledger.solvent, ledger.total⟩

/-- The book stays as it is or makes a move. -/
def Moves (W : Workload) (book book' : TransferBook String (Fin W.count)) : Prop :=
  book' = book ∨ TransferBook.Move W.terms book book'

theorem Moves.solvent {book' : TransferBook String (Fin W.count)}
    (moves : Moves W (W.book bsos) book')
    (ledger : Ledger W initial bsos) (name : String) (start : 0 ≤ initial name) :
    0 ≤ book'.funds name := by
  obtain rfl | move := moves
  · exact ledger.solvent name start
  · exact move.funds_nonneg ledger.positive (ledger.solvent name start)

theorem Moves.total {book' : TransferBook String (Fin W.count)}
    (moves : Moves W (W.book bsos) book')
    (ledger : Ledger W initial bsos) (accounts : Finset String)
    (senders : ∀ i, (W.attempt i).fromBSO ∈ accounts)
    (receivers : ∀ i, (W.attempt i).toBSO ∈ accounts) :
    book'.total W.terms accounts = ∑ name ∈ accounts, initial name := by
  obtain rfl | move := moves
  · exact ledger.total accounts senders receivers
  · rw [TransferBook.Move.total senders receivers move, ledger.total accounts senders receivers]

/-- The part of an amount that is held in a stage. -/
def heldIn (amount : Int) (stage : Stage) : Int := if stage = .held then amount else 0

/-- The ledger after a new record of the sender of a transfer. -/
theorem sender_update (ledger : Ledger W initial bsos)
    (named : b'.id = (bsos (W.attempt i).fromBSO).id) (out : b'.outgoing =
      update (bsos (W.attempt i).fromBSO).outgoing (W.attempt i).id (some t))
    (inc : b'.incoming = (bsos (W.attempt i).fromBSO).incoming) (record : t.Sends (W.attempt i))
    (keeps : Paid bsos (W.attempt i) → t.state = .committed ∨ t.state = .acknowledged)
    (reserved : b'.reserved = (bsos (W.attempt i).fromBSO).reserved +
      (heldIn (W.attempt i).amount (stageOf (some t)
        ((bsos (W.attempt i).toBSO).incoming (W.attempt i).id)) -
        heldIn (W.attempt i).amount ((W.book bsos).stage i)))
    (debits : ∀ id, b'.debits id = if id = (W.attempt i).id then (if t.debitApplied then 1 else 0)
      else (bsos (W.attempt i).fromBSO).debits id)
    (credits : ∀ id, b'.credits id = (bsos (W.attempt i).fromBSO).credits id)
    (moves : Moves W (W.book bsos)
      { funds := update (W.book bsos).funds (W.attempt i).fromBSO b'.balance
        stage := update (W.book bsos).stage i (stageOf (some t)
          ((bsos (W.attempt i).toBSO).incoming (W.attempt i).id)) }) :
    Ledger W initial (update bsos (W.attempt i).fromBSO b') where
  named name := by
    by_cases same : name = (W.attempt i).fromBSO
    · rw [same, update_self, named, ledger.named]
    · rw [update_of_ne same, ledger.named]
  sends name id u found := by
    by_cases same : name = (W.attempt i).fromBSO
    · rw [same, update_self, out] at found
      by_cases own : id = (W.attempt i).id
      · rw [own, update_self, Option.some.injEq] at found
        exact ⟨i, own.symm, same.symm, found ▸ record⟩
      · rw [update_of_ne own] at found
        exact same ▸ ledger.sends _ id u found
    · rw [update_of_ne same] at found
      exact ledger.sends name id u found
  receives name id u found := by
    by_cases same : name = (W.attempt i).fromBSO
    · rw [same, update_self, inc] at found
      exact same ▸ ledger.receives _ id u found
    · rw [update_of_ne same] at found
      exact ledger.receives name id u found
  paid j u found committed := by
    have before : (bsos (W.attempt j).toBSO).incoming (W.attempt j).id = some u := by
      by_cases same : (W.attempt j).toBSO = (W.attempt i).fromBSO
      · rw [same, update_self, inc] at found
        rw [same, found]
      · rwa [update_of_ne same] at found
    obtain ⟨v, sent, state⟩ := ledger.paid j u before committed
    by_cases same : j = i
    · subst same
      exact ⟨t, by rw [update_self, out, update_self], keeps ⟨v, sent, state⟩⟩
    · refine ⟨v, ?_, state⟩
      by_cases sender : (W.attempt j).fromBSO = (W.attempt i).fromBSO
      · rw [sender, update_self, out, update_of_ne (W.id_ne same), ← sender, sent]
      · rw [update_of_ne sender, sent]
  reserved name := by
    rw [book_outgoing out inc, TransferBook.heldBy_update]
    have held := ledger.reserved name
    by_cases same : name = (W.attempt i).fromBSO
    · subst same
      rw [update_self, reserved, held]
      simp [heldIn, Workload.terms]
    · rw [update_of_ne same, held]
      simp [Workload.terms, Ne.symm same]
  debits name id := by
    by_cases same : name = (W.attempt i).fromBSO
    · rw [same, update_self, debits, out]
      by_cases own : id = (W.attempt i).id
      · rw [if_pos own, own, update_self, Option.any_some]
      · rw [if_neg own, update_of_ne own, ledger.debits]
    · rw [update_of_ne same, ledger.debits]
  credits name id := by
    by_cases same : name = (W.attempt i).fromBSO
    · rw [same, update_self, credits, inc, ledger.credits]
    · rw [update_of_ne same, ledger.credits]
  solvent := by
    rw [← book_outgoing out inc] at moves
    exact moves.solvent ledger
  total := by
    rw [← book_outgoing out inc] at moves
    exact moves.total ledger

/-- The ledger after a new record of the receiver of a transfer. -/
theorem receiver_update (ledger : Ledger W initial bsos)
    (named : b'.id = (bsos (W.attempt i).toBSO).id) (inc : b'.incoming =
      update (bsos (W.attempt i).toBSO).incoming (W.attempt i).id (some t))
    (out : b'.outgoing = (bsos (W.attempt i).toBSO).outgoing) (record : t.Receives (W.attempt i))
    (after : t.state = .committed → Paid bsos (W.attempt i))
    (reserved : b'.reserved = (bsos (W.attempt i).toBSO).reserved)
    (credits : ∀ id, b'.credits id =
      if id = (W.attempt i).id then (if t.creditApplied then 1 else 0)
      else (bsos (W.attempt i).toBSO).credits id)
    (debits : ∀ id, b'.debits id = (bsos (W.attempt i).toBSO).debits id)
    (moves : Moves W (W.book bsos)
      { funds := update (W.book bsos).funds (W.attempt i).toBSO b'.balance
        stage := update (W.book bsos).stage i (stageOf
          ((bsos (W.attempt i).fromBSO).outgoing (W.attempt i).id) (some t)) }) :
    Ledger W initial (update bsos (W.attempt i).toBSO b') := by
  have outgoing := outgoing_update out
  rw [← book_incoming inc out] at moves
  have paid : ∀ a, Paid bsos a → Paid (update bsos (W.attempt i).toBSO b') a := by
    rintro a ⟨u, sent, state⟩
    exact ⟨u, by rw [outgoing, sent], state⟩
  refine ⟨fun name => ?_, fun name id u found => ?_, fun name id u found => ?_,
    fun j u found committed => ?_, fun name => ?_, fun name id => ?_, fun name id => ?_,
    moves.solvent ledger, moves.total ledger⟩
  · by_cases same : name = (W.attempt i).toBSO
    · rw [same, update_self, named, ledger.named]
    · rw [update_of_ne same, ledger.named]
  · rw [outgoing] at found
    exact ledger.sends name id u found
  · by_cases same : name = (W.attempt i).toBSO
    · rw [same, update_self, inc] at found
      by_cases own : id = (W.attempt i).id
      · rw [own, update_self, Option.some.injEq] at found
        exact ⟨i, own.symm, same.symm, found ▸ record⟩
      · rw [update_of_ne own] at found
        exact same ▸ ledger.receives _ id u found
    · rw [update_of_ne same] at found
      exact ledger.receives name id u found
  · apply paid
    by_cases same : j = i
    · subst same
      rw [update_self, inc, update_self, Option.some.injEq] at found
      exact after (found ▸ committed)
    · refine ledger.paid j u ?_ committed
      by_cases receiver : (W.attempt j).toBSO = (W.attempt i).toBSO
      · rwa [receiver, update_self, inc, update_of_ne (W.id_ne same),
          ← receiver] at found
      · rwa [update_of_ne receiver] at found
  · -- The receiver's record decides only between the two stages in which nothing is held.
    have held : (W.book (update bsos (W.attempt i).toBSO b')).heldBy W.terms name =
        (W.book bsos).heldBy W.terms name := by
      refine Finset.sum_congr rfl fun j _ => if_congr (and_congr_left fun _ => ?_) rfl rfl
      simp only [Workload.book, outgoing, stageOf]
      split <;> first | rfl | (split <;> first | rfl | (split_ifs <;> simp))
    rw [held, ← ledger.reserved]
    by_cases same : name = (W.attempt i).toBSO
    · rw [same, update_self, reserved]
    · rw [update_of_ne same]
  · rw [outgoing]
    by_cases same : name = (W.attempt i).toBSO
    · rw [same, update_self, debits, ledger.debits]
    · rw [update_of_ne same, ledger.debits]
  · by_cases same : name = (W.attempt i).toBSO
    · rw [same, update_self, credits, inc]
      by_cases own : id = (W.attempt i).id
      · rw [if_pos own, own, update_self, Option.any_some]
      · rw [if_neg own, update_of_ne own, ledger.credits]
    · rw [update_of_ne same, ledger.credits]

/-! ### Operations -/

theorem not_paid {a : Attempt} (found : (bsos a.fromBSO).outgoing a.id = some t)
    (open_ : t.state ≠ .committed ∧ t.state ≠ .acknowledged) : ¬ Paid bsos a := by
  rintro ⟨u, sent, state⟩
  rw [found, Option.some.injEq] at sent
  subst sent
  exact state.elim open_.1 open_.2

/-- Nothing is credited for a transfer that is not committed at its sender. -/
theorem not_credited (ledger : Ledger W initial bsos) (unpaid : ¬ Paid bsos (W.attempt i)) :
    ((bsos (W.attempt i).toBSO).incoming (W.attempt i).id).any Transfer.creditApplied = false := by
  cases found : (bsos (W.attempt i).toBSO).incoming (W.attempt i).id with
  | none => rfl
  | some t =>
    by_contra applied
    have credited : t.creditApplied := by simpa using applied
    exact unpaid (ledger.paid i t found ((ledger.receivesAt i _ t found).credit.mp credited))

/-- Updates of two maps that write what is there already. -/
theorem book_same {f : String → Int} {name : String} {g : Fin W.count → Stage} {x : Int}
    {stage : Stage} (funds : x = f name) (same : stage = g i) :
    (TransferBook.mk (update f name x) (update g i stage) : TransferBook String (Fin W.count)) =
      ⟨f, g⟩ := by
  rw [funds, same, update_eq_self, update_eq_self]

/-- Every operation on the sender of a transfer keeps the ledger. -/
theorem sender (ledger : Ledger W initial bsos)
    (effect : (bsos (W.attempt i).fromBSO).SenderEffect (W.attempt i) b') :
    Ledger W initial (update bsos (W.attempt i).fromBSO b') := by
  have debits := ledger.debits (W.attempt i).fromBSO
  cases effect with
  | same d => exact ledger.forget _ d
  | @refuse d t new record rejected =>
    have idle : (W.book bsos).stage i = .idle := by simp [Workload.book, stageOf, new]
    have none_ : ¬ Paid bsos (W.attempt i) := by rintro ⟨u, sent, -⟩; simp [new] at sent
    refine ledger.sender_update rfl rfl rfl record (fun paid => absurd paid none_)
      (by simp [heldIn, stageOf, rejected, idle]) (fun id => ?_) (fun id => rfl) (.inl ?_)
    · have applied : t.debitApplied = false := by
        simpa [rejected] using record.debit
      refine (ite_eq_right_iff.mpr fun own => ?_).symm
      rw [own, applied]
      exact ((debits _).trans (by simp [new])).symm
    · exact book_same rfl (by simp [stageOf, rejected, idle])
  | @hold d t new record state own covered =>
    have idle : (W.book bsos).stage i = .idle := by simp [Workload.book, stageOf, new]
    have none_ : ¬ Paid bsos (W.attempt i) := by rintro ⟨u, sent, -⟩; simp [new] at sent
    refine ledger.sender_update rfl rfl rfl record (fun paid => absurd paid none_)
      (by simp [heldIn, stageOf, state, idle]) (fun id => ?_) (fun id => rfl) (.inr ?_)
    · have applied : t.debitApplied = false := by
        simpa [state] using record.debit
      refine (ite_eq_right_iff.mpr fun own => ?_).symm
      rw [own, applied]
      exact ((debits _).trans (by simp [new])).symm
    · have stage : stageOf (some t) ((bsos (W.attempt i).toBSO).incoming (W.attempt i).id) =
          .held := by simp [stageOf, state]
      rw [stage]
      exact .hold idle (record.positive (by simp [state])) covered
  | @debit d t t' found state record committed =>
    have held : (W.book bsos).stage i = .held := by simp [Workload.book, stageOf, found, state]
    have unpaid : ¬ Paid bsos (W.attempt i) := not_paid found (by simp [state])
    have stage : stageOf (some t') ((bsos (W.attempt i).toBSO).incoming (W.attempt i).id) =
        .moving := by simp [stageOf, committed, ledger.not_credited unpaid]
    have pos : 0 < (W.attempt i).amount := record.positive (by simp [committed])
    refine ledger.sender_update rfl rfl rfl record (fun _ => .inl committed)
      (by simp [heldIn, stage, held, sub_eq_add_neg]) (fun id => ?_) (fun id => ?_) (.inr ?_)
    · have applied : t'.debitApplied = true := record.debit.mpr (.inl committed)
      have before : t.debitApplied = false := by
        simpa [state] using (ledger.sendsAt i _ t found).debit
      have count := debits id
      by_cases own : id = (W.attempt i).id
      · subst own
        simp_all [BSO.debits, List.countP_append]
      · simp_all [BSO.debits, List.countP_append, Ne.symm own]
    · simp [BSO.credits, List.countP_append, List.countP_cons]
      omega
    · rw [stage]
      have funds : update (W.book bsos).funds (W.attempt i).fromBSO
          (bsos (W.attempt i).fromBSO).balance = (W.book bsos).funds := update_eq_self _ _
      rw [funds]
      exact .debit held
  | @release d t t' found state record expired =>
    have held : (W.book bsos).stage i = .held := by simp [Workload.book, stageOf, found, state]
    have stage : stageOf (some t') ((bsos (W.attempt i).toBSO).incoming (W.attempt i).id) =
        .idle := by simp [stageOf, expired]
    refine ledger.sender_update rfl rfl rfl record
      (fun paid => absurd paid (not_paid found (by simp [state])))
      (by simp [heldIn, stage, held, sub_eq_add_neg]) (fun id => ?_) (fun id => rfl) (.inr ?_)
    · have applied : t'.debitApplied = false := by
        simpa [expired] using record.debit
      have before : t.debitApplied = false := by
        simpa [state] using (ledger.sendsAt i _ t found).debit
      refine (ite_eq_right_iff.mpr fun own => ?_).symm
      rw [own, applied]
      exact ((debits _).trans (by simp [found, before])).symm
    · rw [stage]
      exact .release held
  | @acknowledge d t t' found state record acknowledged =>
    have stage : stageOf (some t') ((bsos (W.attempt i).toBSO).incoming (W.attempt i).id) =
        (W.book bsos).stage i := by simp [Workload.book, stageOf, found, state, acknowledged]
    refine ledger.sender_update rfl rfl rfl record (fun _ => .inr acknowledged)
      (by simp [stage]) (fun id => ?_) (fun id => rfl) (.inl ?_)
    · have applied : t'.debitApplied = true := record.debit.mpr (.inr acknowledged)
      have before : t.debitApplied = true :=
        (ledger.sendsAt i _ t found).debit.mpr (.inl state)
      refine (ite_eq_right_iff.mpr fun own => ?_).symm
      rw [own, applied]
      exact ((debits _).trans (by simp [found, before])).symm
    · exact book_same rfl stage

/-- Every operation on the receiver of a transfer keeps the ledger, if what is credited was debited
before. -/
theorem receiver (ledger : Ledger W initial bsos)
    (effect : (bsos (W.attempt i).toBSO).ReceiverEffect (W.attempt i) b')
    (after : ∀ t, b'.incoming (W.attempt i).id = some t → t.state = .committed →
      Paid bsos (W.attempt i)) :
    Ledger W initial (update bsos (W.attempt i).toBSO b') := by
  have credits := ledger.credits (W.attempt i).toBSO
  cases effect with
  | same d => exact ledger.forget _ d
  | @accept d t new record accepted =>
    have applied : t.creditApplied = false := by simpa [accepted] using record.credit
    refine ledger.receiver_update rfl rfl rfl record (by simp [accepted]) rfl (fun id => ?_)
      (fun id => rfl) (.inl ?_)
    · by_cases own : id = (W.attempt i).id
      · rw [if_pos own, own, applied]
        exact (credits _).trans (by simp [new])
      · rw [if_neg own]
        rfl
    · exact book_same rfl (by simp [Workload.book, stageOf, new, applied])
  | @credit d t t' found accepted record committed =>
    have paid := after t' (by simp) committed
    obtain ⟨u, sent, state⟩ := paid
    have pos : 0 < (W.attempt i).amount :=
      (ledger.sendsAt i _ u sent).positive (by rintro rejected; simp [rejected] at state)
    have applied : t'.creditApplied = true := record.credit.mpr committed
    have before : t.creditApplied = false := by
      simpa [accepted] using (ledger.receivesAt i _ t found).credit
    have stage : stageOf ((bsos (W.attempt i).fromBSO).outgoing (W.attempt i).id) (some t') =
        .settled := by
      obtain state | state := state <;> simp [stageOf, sent, state, applied]
    have moving : (W.book bsos).stage i = .moving := by
      obtain state | state := state <;> simp [Workload.book, stageOf, sent, state, found, before]
    refine ledger.receiver_update rfl rfl rfl record (fun _ => ⟨u, sent, state⟩) rfl
      (fun id => ?_) (fun id => ?_) (.inr ?_)
    · have count := credits id
      by_cases own : id = (W.attempt i).id
      · subst own
        simp_all [BSO.credits, List.countP_append]
      · simp_all [BSO.credits, List.countP_append, Ne.symm own]
    · simp [BSO.debits, List.countP_append, List.countP_cons]
      omega
    · rw [stage]
      exact .credit moving

end Ledger

end OctetDB.Trust
