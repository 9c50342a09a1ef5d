import Mathlib

/-!
# Books of transfers

Money that a transfer moves is first held at its payer, then on its way, and at last with its payee.
A book keeps what each account has at its disposal and how far each transfer is. Money is neither
made nor lost as transfers move on: what accounts have, what is held and what is on its way always
add up to the same sum.
-/

namespace OctetDB

open Function (update update_of_ne update_self)

/-- How far a transfer is. -/
inductive Stage
  | idle
  | held
  | moving
  | settled
  deriving DecidableEq, Repr

/-- Who pays what to whom. -/
structure Terms (A T : Type) where
  payer : T → A
  payee : T → A
  amount : T → Int

structure TransferBook (A T : Type) where
  funds : A → Int
  stage : T → Stage

namespace TransferBook

variable {A T : Type} [DecidableEq A] [DecidableEq T]

/-- One transfer moves on by one stage, or back to where nothing is taken. -/
inductive Move (terms : Terms A T) (b : TransferBook A T) : TransferBook A T → Prop
  | hold {t : T} (idle : b.stage t = .idle) (positive : 0 < terms.amount t)
      (covered : terms.amount t ≤ b.funds (terms.payer t)) :
      Move terms b
        { funds := update b.funds (terms.payer t)
            (b.funds (terms.payer t) - terms.amount t)
          stage := update b.stage t .held }
  | release {t : T} (held : b.stage t = .held) :
      Move terms b
        { funds := update b.funds (terms.payer t)
            (b.funds (terms.payer t) + terms.amount t)
          stage := update b.stage t .idle }
  | debit {t : T} (held : b.stage t = .held) :
      Move terms b { b with stage := update b.stage t .moving }
  | credit {t : T} (moving : b.stage t = .moving) :
      Move terms b
        { funds := update b.funds (terms.payee t)
            (b.funds (terms.payee t) + terms.amount t)
          stage := update b.stage t .settled }

/-- Money is only taken by transfers of something. -/
def Positive (terms : Terms A T) (b : TransferBook A T) : Prop :=
  ∀ t, b.stage t ≠ .idle → 0 < terms.amount t

variable {terms : Terms A T} {b b' : TransferBook A T}

/-- No account is overdrawn by a move. -/
theorem Move.funds_nonneg (move : Move terms b b') (positive : b.Positive terms) {a : A}
    (before : 0 ≤ b.funds a) : 0 ≤ b'.funds a := by
  cases move with
  | @hold t idle pos covered =>
    by_cases same : a = terms.payer t
    · subst same
      simpa using covered
    · simpa [same] using before
  | @release t held =>
    have pos := positive t (by simp [held])
    by_cases same : a = terms.payer t
    · subst same
      simp only [update_self]
      omega
    · simpa [same] using before
  | debit held => exact before
  | @credit t moving =>
    have pos := positive t (by simp [moving])
    by_cases same : a = terms.payee t
    · subst same
      simp only [update_self]
      omega
    · simpa [same] using before

section Sums

variable [Fintype T]

/-- A sum over the transfers in which only one term changes. -/
theorem sum_update (w : Stage → T → Int) (stage : T → Stage) (t : T) (x : Stage) :
    ∑ u, w (update stage t x u) u = ∑ u, w (stage u) u + (w x t - w (stage t) t) := by
  have rest : ∑ u ∈ Finset.univ.erase t, w (update stage t x u) u =
      ∑ u ∈ Finset.univ.erase t, w (stage u) u :=
    Finset.sum_congr rfl fun u mem => by rw [update_of_ne (Finset.ne_of_mem_erase mem)]
  rw [← Finset.add_sum_erase _ _ (Finset.mem_univ t),
    ← Finset.add_sum_erase _ (fun u => w (stage u) u) (Finset.mem_univ t), rest, update_self]
  omega

/-- A sum over accounts in which only one term changes. -/
theorem sum_funds_update {accounts : Finset A} (funds : A → Int) {a : A} (mem : a ∈ accounts)
    (d : Int) :
    ∑ c ∈ accounts, update funds a (funds a + d) c = ∑ c ∈ accounts, funds c + d := by
  rw [Finset.sum_update_of_mem mem, ← Finset.add_sum_erase _ _ mem, Finset.sdiff_singleton_eq_erase]
  omega

/-- What is held for the transfers of an account. -/
def heldBy (terms : Terms A T) (b : TransferBook A T) (a : A) : Int :=
  ∑ t, if b.stage t = .held ∧ terms.payer t = a then terms.amount t else 0

def inTransit (terms : Terms A T) (b : TransferBook A T) : Int :=
  ∑ t, if b.stage t = .moving then terms.amount t else 0

/-- What the accounts have, what is held for them and what is on its way. -/
def total (terms : Terms A T) (accounts : Finset A) (b : TransferBook A T) : Int :=
  ∑ a ∈ accounts, (b.funds a + b.heldBy terms a) + b.inTransit terms

theorem heldBy_update (terms : Terms A T) (b : TransferBook A T) (t : T) (x : Stage)
    (funds : A → Int) (a : A) :
    heldBy terms ⟨funds, update b.stage t x⟩ a = heldBy terms b a +
      ((if x = .held ∧ terms.payer t = a then terms.amount t else 0) -
        (if b.stage t = .held ∧ terms.payer t = a then terms.amount t else 0)) :=
  sum_update (fun stage u => if stage = .held ∧ terms.payer u = a then terms.amount u else 0)
    b.stage t x

omit [DecidableEq A] in
theorem inTransit_update (terms : Terms A T) (b : TransferBook A T) (t : T) (x : Stage)
    (funds : A → Int) :
    inTransit terms ⟨funds, update b.stage t x⟩ = inTransit terms b +
      ((if x = .moving then terms.amount t else 0) -
        (if b.stage t = .moving then terms.amount t else 0)) :=
  sum_update (fun stage u => if stage = .moving then terms.amount u else 0) b.stage t x

omit [DecidableEq T] in
theorem heldBy_nonneg (positive : b.Positive terms) (a : A) : 0 ≤ b.heldBy terms a := by
  refine Finset.sum_nonneg fun t _ => ?_
  split_ifs with held
  · exact (positive t (by simp [held.1])).le
  · exact le_rfl

omit [DecidableEq T] in
theorem sum_heldBy {accounts : Finset A} (payers : ∀ t, terms.payer t ∈ accounts)
    (b : TransferBook A T) :
    ∑ a ∈ accounts, b.heldBy terms a = ∑ t, if b.stage t = .held then terms.amount t else 0 := by
  unfold heldBy
  rw [Finset.sum_comm]
  refine Finset.sum_congr rfl fun t _ => ?_
  by_cases held : b.stage t = .held
  · simp [held, payers t]
  · simp [held]

/-- A move neither makes nor loses money. -/
theorem Move.total {accounts : Finset A} (payers : ∀ t, terms.payer t ∈ accounts)
    (payees : ∀ t, terms.payee t ∈ accounts) (move : Move terms b b') :
    b'.total terms accounts = b.total terms accounts := by
  simp only [TransferBook.total, Finset.sum_add_distrib, sum_heldBy payers]
  -- The sums of the funds and of the two stages that count, before and after the move.
  have held := fun t x =>
    sum_update (fun stage u => if stage = .held then terms.amount u else 0) b.stage t x
  have transit := fun t x funds => inTransit_update terms b t x funds
  have funds := fun {a : A} (mem : a ∈ accounts) d => sum_funds_update b.funds mem d
  cases move with
  | @hold t idle pos covered =>
    rw [held, transit, sub_eq_add_neg, funds (payers t)]
    simp [idle]
    omega
  | @release t stage =>
    rw [held, transit, funds (payers t)]
    simp [stage]
    omega
  | @debit t stage =>
    rw [held, transit]
    simp [stage]
    omega
  | @credit t stage =>
    rw [held, transit, funds (payees t)]
    simp [stage]
    omega

end Sums

end TransferBook

end OctetDB
