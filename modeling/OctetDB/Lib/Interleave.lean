import Mathlib

/-!
# Interleaved steps

Parties share a state and take turns. `step s a` is the state after party `a` has moved, or
nothing if it cannot move in `s`. A run is any interleaving of their steps, pauses included; a
run is fair to a party that moves again and again as long as it can again and again.
-/

namespace OctetDB

variable {σ α : Type} {step : σ → α → Option σ} {start : σ}

/-- Some party takes a step. -/
def Moves (step : σ → α → Option σ) (s t : σ) : Prop := ∃ a, step s a = some t

/-- A property that every step keeps holds in every state that can be reached. -/
theorem invariant_of_step {P : σ → Prop} {s t : σ} (holds : P s)
    (keep : ∀ s a t, P s → step s a = some t → P t)
    (reach : Relation.ReflTransGen (Moves step) s t) : P t := by
  induction reach with
  | refl => exact holds
  | tail _ move ih =>
    obtain ⟨a, move⟩ := move
    exact keep _ a _ ih move

structure Interleaving (step : σ → α → Option σ) (start : σ) where
  state : Nat → σ
  state_zero : state 0 = start
  next : ∀ n, state (n + 1) = state n ∨ Moves step (state n) (state (n + 1))

namespace Interleaving

variable (run : Interleaving step start) {P Q R : σ → Prop}

theorem reaches {n m : Nat} (le : n ≤ m) :
    Relation.ReflTransGen (Moves step) (run.state n) (run.state m) := by
  induction m, le using Nat.le_induction with
  | base => exact .refl
  | succ m _ ih =>
    rcases run.next m with pause | move
    · rwa [pause]
    · exact ih.tail move

/-- The party moves again and again, if it can again and again. -/
def Fair (a : α) : Prop :=
  (∀ n, ∃ m, n ≤ m ∧ (step (run.state m) a).isSome = true) →
    ∀ n, ∃ m, n ≤ m ∧ step (run.state m) a = some (run.state (m + 1))

/-- Whenever `P` holds, `Q` holds then or later. -/
def LeadsTo (P Q : σ → Prop) : Prop :=
  ∀ n, P (run.state n) → ∃ m, n ≤ m ∧ Q (run.state m)

variable {run}

/-- While every step keeps `P` or reaches `Q`, a party whose step reaches `Q`, and that can move
again and again, takes it in a fair run. -/
theorem leadsTo_of_fair {a : α} (fair : run.Fair a)
    (keep : ∀ s b t, P s → step s b = some t → P t ∨ Q t)
    (reach : ∀ s t, P s → step s a = some t → Q t)
    (ready : run.LeadsTo P fun s => (step s a).isSome = true ∨ Q s) : run.LeadsTo P Q := by
  intro n holds
  by_contra never
  have never (m : Nat) (le : n ≤ m) : ¬ Q (run.state m) := fun h => never ⟨m, le, h⟩
  have always (m : Nat) (le : n ≤ m) : P (run.state m) := by
    induction m, le using Nat.le_induction with
    | base => exact holds
    | succ m le ih =>
      rcases run.next m with pause | ⟨b, move⟩
      · rwa [pause]
      · exact (keep _ b _ ih move).resolve_right (never _ (by omega))
  have again (k : Nat) : ∃ m, k ≤ m ∧ (step (run.state m) a).isSome = true := by
    obtain ⟨m, le, able | reached⟩ := ready (max n k) (always _ (by omega))
    · exact ⟨m, by omega, able⟩
    · exact absurd reached (never m (by omega))
  obtain ⟨m, le, moved⟩ := fair again n
  exact never (m + 1) (by omega) (reach _ _ (always m le) moved)

/-- A rank that comes down as long as `Q` is not reached. -/
theorem leadsTo_of_rank (rank : σ → Nat)
    (down : ∀ k, run.LeadsTo (fun s => P s ∧ rank s = k) fun s => Q s ∨ (P s ∧ rank s < k)) :
    run.LeadsTo P Q := by
  suffices ∀ k n, P (run.state n) → rank (run.state n) = k → ∃ m, n ≤ m ∧ Q (run.state m) from
    fun n holds => this _ n holds rfl
  intro k
  induction k using Nat.strong_induction_on with
  | _ k ih =>
    intro n holds eq
    obtain ⟨m, le, reached | ⟨holds, less⟩⟩ := down k n ⟨holds, eq⟩
    · exact ⟨m, le, reached⟩
    · obtain ⟨l, le', reached⟩ := ih _ less m holds rfl
      exact ⟨l, le.trans le', reached⟩

/-- The run that takes the steps of a list of parties, as far as they can move, and rests. -/
def play (step : σ → α → Option σ) (start : σ) (parties : List α) : Interleaving step start where
  state n := (parties.take n).foldl (fun s a => (step s a).getD s) start
  state_zero := rfl
  next n := by
    rw [List.take_add_one, List.foldl_append]
    cases parties[n]? with
    | none => exact .inl rfl
    | some a =>
      generalize (parties.take n).foldl (fun s a => (step s a).getD s) start = s
      cases moved : step s a with
      | none => exact .inl (by simp [moved])
      | some t => exact .inr ⟨a, by simp [moved]⟩

theorem play_rests (parties : List α) {n : Nat} (le : parties.length ≤ n) :
    (play step start parties).state n = (play step start parties).state parties.length := by
  simp [play, List.take_of_length_le le]

/-- A run that rests where a party cannot move is fair to it. -/
theorem play_fair {parties : List α} {a : α}
    (stuck : step ((play step start parties).state parties.length) a = none) :
    (play step start parties).Fair a := by
  intro able
  obtain ⟨m, le, able⟩ := able parties.length
  rw [play_rests parties le, stuck] at able
  cases able

end Interleaving

end OctetDB
