import Mathlib

/-!
# Folds that may fail

A loop that can stop with an error is a fold in `Except`. It succeeds exactly if every step
does, in order.
-/

namespace OctetDB

variable {α σ ε : Type} {f : σ → α → Except ε σ}

theorem bind_ok {β : Type} {x : Except ε α} {g : α → Except ε β} {b : β} :
    (x >>= g) = .ok b ↔ ∃ a, x = .ok a ∧ g a = .ok b := by
  cases x <;> simp [bind, Except.bind]

theorem mapError_ok {δ : Type} {x : Except ε α} {g : ε → δ} {a : α} :
    x.mapError g = .ok a ↔ x = .ok a := by
  cases x <;> simp [Except.mapError]

def failure : Except ε α → Option ε
  | .error err => some err
  | .ok _ => none

theorem failure_eq_some {x : Except ε α} {err : ε} : failure x = some err ↔ x = .error err := by
  cases x <;> simp [failure]

theorem toOption_eq_some {x : Except ε α} {a : α} : x.toOption = some a ↔ x = .ok a := by
  cases x <;> simp [Except.toOption]

theorem foldlM_nil_ok {s t : σ} : [].foldlM f s = .ok t ↔ s = t := by
  simp [pure, Except.pure]

theorem foldlM_cons_ok {x : α} {xs : List α} {s t : σ} :
    (x :: xs).foldlM f s = .ok t ↔ ∃ u, f s x = .ok u ∧ xs.foldlM f u = .ok t := by
  rw [List.foldlM_cons]
  cases h : f s x <;> simp [bind, Except.bind]

theorem foldlM_append_ok {xs ys : List α} {s t : σ} :
    (xs ++ ys).foldlM f s = .ok t ↔ ∃ u, xs.foldlM f s = .ok u ∧ ys.foldlM f u = .ok t := by
  rw [List.foldlM_append]
  cases h : xs.foldlM f s <;> simp [bind, Except.bind]

/-- A fallible fold over elements that a total function maps. -/
theorem foldlM_map_congr {β : Type} {g : σ → β → Except ε σ} {m : β → α} {xs : List β}
    (h : ∀ x ∈ xs, ∀ s, f s (m x) = g s x) (s : σ) : (xs.map m).foldlM f s = xs.foldlM g s := by
  induction xs generalizing s with
  | nil => rfl
  | cons x xs ih =>
    rw [List.map_cons, List.foldlM_cons, List.foldlM_cons, h x (by simp)]
    congr 1
    funext u
    exact ih (fun y hy => h y (by simp [hy])) u

theorem forM_ok {g : α → Except ε Unit} {xs : List α} :
    forM xs g = .ok () ↔ ∀ x ∈ xs, g x = .ok () := by
  induction xs with
  | nil => simp [pure, Except.pure]
  | cons x xs ih =>
    rw [List.forM_cons, List.forall_mem_cons]
    cases h : g x with
    | error e => simp [bind, Except.bind]
    | ok u => simpa [bind, Except.bind] using ih

/-- A property of the elements seen and the state reached that every step of a fold keeps. -/
theorem foldl_induction {step : σ → α → σ} {P : List α → σ → Prop} {xs : List α} {s : σ}
    (start : P [] s)
    (next : ∀ before x after, xs = before ++ x :: after → P before (before.foldl step s) →
      P (before ++ [x]) (step (before.foldl step s) x)) : P xs (xs.foldl step s) := by
  suffices ∀ after before, xs = before ++ after → P before (before.foldl step s) →
      P xs (xs.foldl step s) from this xs [] rfl start
  intro after
  induction after with
  | nil => intro before eq h; rwa [eq, List.append_nil]
  | cons x after ih =>
    intro before eq h
    refine ih (before ++ [x]) (by simp [eq]) ?_
    simpa using next before x after eq h

end OctetDB
