import Mathlib

/-!
# Binary search in ascending lists

A binary search in a list that ascends strictly finds where a key is or belongs, and the list
still ascends when the key is inserted there, or removed from there.
-/

namespace OctetDB

namespace Search

/-! ## The search -/

/-- The loop of a binary search between `lo` and `hi`, for at most `fuel` rounds. -/
def loop (f : Nat → Bool) : Nat → Nat → Nat → Nat
  | 0, lo, _ => lo
  | fuel + 1, lo, hi =>
    if lo < hi then
      let mid := (lo + hi) / 2
      if f mid then loop f fuel lo mid else loop f fuel (mid + 1) hi
    else lo

/-- The smallest index below `n` at which `f` holds, or `n` if there is none. -/
def search (n : Nat) (f : Nat → Bool) : Nat := loop f n 0 n

section Spec

variable {f : Nat → Bool} {n : Nat}

/-- Below the result `f` fails, from the result on it holds. -/
def Splits (f : Nat → Bool) (n r : Nat) : Prop :=
  r ≤ n ∧ (∀ i, i < r → f i = false) ∧ ∀ i, r ≤ i → i < n → f i = true

theorem loop_splits (mono : ∀ i j, i ≤ j → j < n → f i = true → f j = true) {fuel lo hi : Nat}
    (enough : hi - lo ≤ fuel) (le : lo ≤ hi) (bound : hi ≤ n) (low : ∀ i, i < lo → f i = false)
    (high : ∀ i, hi ≤ i → i < n → f i = true) : Splits f n (loop f fuel lo hi) := by
  induction fuel generalizing lo hi with
  | zero =>
    obtain rfl : lo = hi := by omega
    exact ⟨bound, low, high⟩
  | succ fuel ih =>
    rw [loop]
    by_cases active : lo < hi
    · rw [if_pos active]
      by_cases here : f ((lo + hi) / 2) = true
      · rw [if_pos here]
        refine ih (by omega) (by omega) (by omega) low fun i le less => ?_
        exact mono _ i le less here
      · rw [if_neg here]
        refine ih (by omega) (by omega) bound (fun i less => ?_) high
        by_contra holds
        exact here (mono i _ (by omega) (by omega) (by simpa using holds))
    · rw [if_neg active]
      obtain rfl : lo = hi := by omega
      exact ⟨bound, low, high⟩

theorem search_splits (mono : ∀ i j, i ≤ j → j < n → f i = true → f j = true) :
    Splits f n (search n f) :=
  loop_splits mono (by omega) (by omega) (by omega) (fun i less => absurd less (by omega))
    fun i le less => absurd le (by omega)

end Spec

/-! ## Ascending lists -/

variable {α : Type} {cmp : α → α → Ordering}

def Ascending (cmp : α → α → Ordering) (keys : List α) : Prop :=
  keys.Pairwise fun a b => cmp a b = .lt

/-- What stands at the index is not below the key. -/
def reached (cmp : α → α → Ordering) (keys : List α) (key : α) (i : Nat) : Bool :=
  (keys[i]?).all fun k => cmp k key != .lt

/-- Where a key is or belongs. -/
def position (cmp : α → α → Ordering) (keys : List α) (key : α) : Nat :=
  search keys.length (reached cmp keys key)

theorem reached_eq {keys : List α} {key : α} {i : Nat} (less : i < keys.length) :
    reached cmp keys key i = true ↔ cmp keys[i] key ≠ .lt := by
  simp [reached, List.getElem?_eq_getElem less]

theorem insertIdx_append (low high : List α) (key : α) :
    (low ++ high).insertIdx low.length key = low ++ key :: high := by
  induction low with
  | nil => simp
  | cons k low ih => simp [ih]

variable [Std.TransCmp cmp]

/-- The keys below a key come first. -/
theorem position_split {keys : List α} (asc : Ascending cmp keys) (key : α) :
    ∃ low high, keys = low ++ high ∧ position cmp keys key = low.length ∧
      (∀ k ∈ low, cmp k key = .lt) ∧ ∀ k ∈ high, cmp k key ≠ .lt := by
  have splits : Splits (reached cmp keys key) keys.length (position cmp keys key) := by
    refine search_splits fun i j le less holds => (reached_eq less).mpr fun below => ?_
    have before := (reached_eq (by omega)).mp holds
    rcases Nat.lt_or_eq_of_le le with earlier | rfl
    · have order := List.pairwise_iff_getElem.mp asc i j (by omega) less earlier
      exact before (Std.TransCmp.lt_trans order below)
    · exact before below
  obtain ⟨le, low, high⟩ := splits
  refine ⟨keys.take (position cmp keys key), keys.drop (position cmp keys key),
    (List.take_append_drop _ _).symm, by simp [le], fun k mem => ?_, fun k mem => ?_⟩
  · obtain ⟨i, less, rfl⟩ := List.mem_take_iff_getElem.mp mem
    have here := low i (by omega)
    rw [← Bool.not_eq_true, reached_eq (by omega)] at here
    simpa using here
  · obtain ⟨i, less, rfl⟩ := List.mem_drop_iff_getElem.mp mem
    exact (reached_eq (by omega)).mp (high _ (by omega) (by omega))

/-- A key that is present is where it belongs. -/
theorem getElem?_position {keys : List α} (asc : Ascending cmp keys) (key : α) :
    keys[position cmp keys key]? = some key ↔ key ∈ keys := by
  obtain ⟨low, high, rfl, at_, below, above⟩ := position_split asc key
  refine ⟨List.mem_of_getElem?, fun mem => ?_⟩
  have mem : key ∈ high := by
    rcases List.mem_append.mp mem with mem | mem
    · exact absurd (below key mem) (by simp [Std.ReflCmp.compare_self])
    · exact mem
  rw [at_, List.getElem?_append_right (le_refl _), Nat.sub_self]
  cases high with
  | nil => cases mem
  | cons k high =>
    rcases List.mem_cons.mp mem with rfl | mem
    · rfl
    · -- The head is below the key, so it would stand before the position.
      have order := (List.pairwise_append.mp asc).2.1
      exact absurd ((List.pairwise_cons.mp order).1 key mem) (above k (by simp))

theorem ascending_insert [Std.LawfulEqCmp cmp] {keys : List α} (asc : Ascending cmp keys) {key : α}
    (absent : key ∉ keys) :
    Ascending cmp (keys.insertIdx (position cmp keys key) key) ∧
      ∀ k, k ∈ keys.insertIdx (position cmp keys key) key ↔ k = key ∨ k ∈ keys := by
  obtain ⟨low, high, rfl, at_, below, above⟩ := position_split asc key
  rw [at_, insertIdx_append]
  obtain ⟨first, second, cross⟩ := List.pairwise_append.mp asc
  refine ⟨List.pairwise_append.mpr ⟨first, List.pairwise_cons.mpr ⟨fun k mem => ?_, second⟩,
    fun a ha b hb => ?_⟩, fun k => by simp; tauto⟩
  · have differ : key ≠ k := by
      rintro rfl
      exact absent (by simp [mem])
    cases order : cmp k key with
    | lt => exact absurd order (above k mem)
    | eq => exact absurd (Std.LawfulEqCmp.eq_of_compare order).symm differ
    | gt => exact Std.OrientedCmp.lt_of_gt order
  · rcases List.mem_cons.mp hb with rfl | hb
    · exact below a ha
    · exact cross a ha b hb

theorem ascending_erase {keys : List α} (asc : Ascending cmp keys) {key : α}
    (present : key ∈ keys) :
    Ascending cmp (keys.eraseIdx (position cmp keys key)) ∧
      ∀ k, k ∈ keys.eraseIdx (position cmp keys key) ↔ k ≠ key ∧ k ∈ keys := by
  have found := (getElem?_position asc key).mpr present
  obtain ⟨low, high, rfl, at_, below, above⟩ := position_split asc key
  rw [at_, List.getElem?_append_right (le_refl _), Nat.sub_self] at found
  obtain ⟨rest, rfl⟩ : ∃ rest, high = key :: rest := by
    cases high with
    | nil => cases found
    | cons k high => exact ⟨high, by simpa using found⟩
  have erased : (low ++ key :: rest).eraseIdx low.length = low ++ rest := by
    simp [List.eraseIdx_append]
  rw [at_, erased]
  refine ⟨asc.sublist ((List.sublist_cons_self key rest).append_left low), fun k => ?_⟩
  obtain ⟨-, second, cross⟩ := List.pairwise_append.mp asc
  have refl : cmp key key ≠ .lt := by simp [Std.ReflCmp.compare_self]
  have left : key ∉ low := fun mem => refl (below key mem)
  have right : key ∉ rest := fun mem => refl ((List.pairwise_cons.mp second).1 key mem)
  simp only [List.mem_append, List.mem_cons]
  constructor
  · rintro (mem | mem)
    · exact ⟨by rintro rfl; exact left mem, .inl mem⟩
    · exact ⟨by rintro rfl; exact right mem, .inr (.inr mem)⟩
  · tauto

/-- A list without repetitions ascends strictly once it is sorted. -/
theorem ascending_mergeSort [Std.LawfulEqCmp cmp] {keys : List α} (nodup : keys.Nodup) :
    Ascending cmp (keys.mergeSort fun a b => (cmp a b).isLE) := by
  have sorted := @List.pairwise_mergeSort _ (fun a b => (cmp a b).isLE)
    (fun _ _ _ first second => Std.TransCmp.isLE_trans first second) (fun a b => ?total) keys
  case total =>
    cases order : cmp a b with
    | gt => simp [Std.OrientedCmp.lt_of_gt order]
    | _ => simp
  have distinct := (List.mergeSort_perm keys fun a b => (cmp a b).isLE).nodup_iff.mpr nodup
  refine (sorted.and distinct).imp ?_
  rintro a b ⟨le, differ⟩
  cases order : cmp a b with
  | lt => rfl
  | eq => exact absurd (Std.LawfulEqCmp.eq_of_compare order) differ
  | gt => simp [order] at le

end Search

end OctetDB
