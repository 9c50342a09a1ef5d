import OctetDB.Lib.Bytes

/-!
# Dense tables

A table keeps its values in rows in the order they were added and finds the row of an ID
through an index. The index and the rows always agree, so a table is a finite map from IDs to
values; the order of the rows is an accident.
-/

namespace OctetDB

structure Table (V : Type) where
  ids : WordMap Nat := ∅
  rows : List (UInt64 × V) := []
  indexed : ∀ (id : UInt64) (i : Nat), ids[id]? = some i ↔ ∃ v, rows[i]? = some (id, v)

namespace Table

variable {V : Type}

def empty : Table V := ⟨∅, [], by simp⟩

def slot (t : Table V) (id : UInt64) : Option Nat := t.ids[id]?

def row (t : Table V) (i : Nat) : Option V := t.rows[i]?.map Prod.snd

def find (t : Table V) (id : UInt64) : Option V := (t.slot id).bind t.row

def size (t : Table V) : Nat := t.rows.length

@[simp] theorem size_empty : (empty : Table V).size = 0 := rfl

theorem slot_eq_some {t : Table V} {id : UInt64} {i : Nat} :
    t.slot id = some i ↔ ∃ v, t.rows[i]? = some (id, v) := t.indexed id i

theorem mem_ids {t : Table V} {id : UInt64} : id ∈ t.ids ↔ (t.slot id).isSome = true :=
  Std.ExtTreeMap.mem_iff_isSome_getElem?

theorem getElem?_concat {α : Type} {xs : List α} {x y : α} {i : Nat} :
    (xs ++ [x])[i]? = some y ↔ xs[i]? = some y ∨ (i = xs.length ∧ x = y) := by
  rcases Nat.lt_trichotomy i xs.length with lt | rfl | gt
  · grind
  · simp
  · grind

/-- Adds a value for an ID that has none. -/
def ensure (t : Table V) (id : UInt64) (v : V) : Table V :=
  if known : id ∈ t.ids then t
  else
    { ids := t.ids.insert id t.rows.length
      rows := t.rows ++ [(id, v)]
      indexed := by
        intro k i
        have fresh : ∀ (j : Nat) (w : V), t.rows[j]? ≠ some (id, w) := by
          intro j w get
          exact known (mem_ids.mpr (by rw [slot_eq_some.mpr ⟨w, get⟩]; rfl))
        rw [Std.ExtTreeMap.getElem?_insert]
        simp only [getElem?_concat, exists_or]
        by_cases same : id = k
        · subst same
          simp [fresh, eq_comm]
        · simp [same, t.indexed] }

def modify (t : Table V) (i : Nat) (f : V → V) : Table V where
  ids := t.ids
  rows := t.rows.modify i fun e => (e.1, f e.2)
  indexed := by
    intro k j
    rw [t.indexed, List.getElem?_modify]
    cases t.rows[j]? with
    | none => simp
    | some e =>
      obtain ⟨key, v⟩ := e
      by_cases same : i = j <;> simp [same]

def map {W : Type} (f : V → W) (t : Table V) : Table W where
  ids := t.ids
  rows := t.rows.map fun e => (e.1, f e.2)
  indexed := by
    intro k j
    rw [t.indexed, List.getElem?_map]
    cases t.rows[j]? with
    | none => simp
    | some e => simp [Prod.ext_iff]

/-! ## A table as a map -/

@[simp] theorem find_empty (id : UInt64) : (empty : Table V).find id = none := by
  simp [find, slot, empty]

theorem row_slot {t : Table V} {id : UInt64} {i : Nat} (h : t.slot id = some i) :
    t.row i = t.find id := by
  simp [find, h]

theorem find_eq_some {t : Table V} {id : UInt64} {v : V} :
    t.find id = some v ↔ ∃ i : Nat, t.rows[i]? = some (id, v) := by
  constructor
  · intro found
    obtain ⟨i, here, value⟩ := Option.bind_eq_some_iff.mp found
    obtain ⟨w, get⟩ := slot_eq_some.mp here
    simp only [row, get, Option.map_some, Option.some.injEq] at value
    exact ⟨i, value ▸ get⟩
  · rintro ⟨i, get⟩
    simp [find, slot_eq_some.mpr ⟨v, get⟩, row, get]

theorem find_isSome {t : Table V} {id : UInt64} : (t.find id).isSome = (t.slot id).isSome := by
  cases here : t.slot id with
  | none => simp [find, here]
  | some i =>
    obtain ⟨v, get⟩ := slot_eq_some.mp here
    simp [find_eq_some.mpr ⟨i, get⟩]

theorem slot_inj {t : Table V} {a b : UInt64} {i : Nat} (left : t.slot a = some i)
    (right : t.slot b = some i) : a = b := by
  obtain ⟨v, getA⟩ := slot_eq_some.mp left
  obtain ⟨w, getB⟩ := slot_eq_some.mp right
  rw [getA] at getB
  cases getB
  rfl

@[simp] theorem slot_modify (t : Table V) (i : Nat) (f : V → V) (id : UInt64) :
    (t.modify i f).slot id = t.slot id := rfl

theorem find_modify {t : Table V} {id : UInt64} {i : Nat} (h : t.slot id = some i) (f : V → V)
    (k : UInt64) : (t.modify i f).find k = if k = id then (t.find k).map f else t.find k := by
  cases here : t.slot k with
  | none =>
    have other : k ≠ id := by rintro rfl; rw [h] at here; cases here
    simp [find, here, other]
  | some j =>
    have read : (t.modify i f).find k =
        (t.rows.modify i fun e => (e.1, f e.2))[j]?.map Prod.snd := by
      rw [find, slot_modify, here]; rfl
    rw [read, List.getElem?_modify, find, here, Option.bind_some, row]
    by_cases same : i = j
    · subst same
      obtain rfl := slot_inj here h
      cases t.rows[i]? <;> simp
    · have other : k ≠ id := by rintro rfl; rw [h] at here; exact same (Option.some.inj here)
      cases t.rows[j]? <;> simp [same, other]

@[simp] theorem find_map {W : Type} (f : V → W) (t : Table V) (id : UInt64) :
    (t.map f).find id = (t.find id).map f := by
  have read (i : Nat) : (t.map f).row i = (t.row i).map f := by
    simp [row, map, List.getElem?_map, Function.comp_def]
  change (t.slot id).bind (t.map f).row = ((t.slot id).bind t.row).map f
  cases t.slot id with
  | none => rfl
  | some i => exact read i

theorem find_ensure (t : Table V) (id : UInt64) (v : V) (k : UInt64) :
    (t.ensure id v).find k = if k = id then some ((t.find id).getD v) else t.find k := by
  unfold ensure
  split
  · rename_i known
    rw [mem_ids, ← find_isSome] at known
    obtain ⟨w, found⟩ := Option.isSome_iff_exists.mp known
    split
    · rename_i same; rw [same, found]; rfl
    · rfl
  · rename_i fresh
    have absent : t.find id = none := by
      rwa [mem_ids, ← find_isSome, Option.not_isSome_iff_eq_none] at fresh
    ext w
    rw [find_eq_some]
    simp only [getElem?_concat, exists_or, exists_eq_left, Prod.mk.injEq, ← find_eq_some]
    split
    · rename_i same
      subst same
      simp [absent]
    · rename_i other
      simp [Ne.symm other]

/-! ## Properties of all values -/

def All (P : V → Prop) (t : Table V) : Prop := ∀ e ∈ t.rows, P e.2

variable {P : V → Prop} {t : Table V}

theorem All.empty (P : V → Prop) : (empty : Table V).All P := by
  intro e mem; cases mem

theorem All.find {id : UInt64} {v : V} (all : t.All P) (found : t.find id = some v) : P v := by
  obtain ⟨i, get⟩ := find_eq_some.mp found
  exact all (id, v) (List.mem_of_getElem? get)

theorem All.ensure (all : t.All P) (id : UInt64) {v : V} (h : P v) : (t.ensure id v).All P := by
  unfold Table.ensure
  split
  · exact all
  · intro e mem
    rcases List.mem_append.mp mem with old | new
    · exact all e old
    · rw [List.mem_singleton.mp new]; exact h

theorem All.modify (all : t.All P) (i : Nat) {f : V → V} (keeps : ∀ v, P v → P (f v)) :
    (t.modify i f).All P := by
  intro e mem
  obtain ⟨j, get⟩ := List.mem_iff_getElem?.mp mem
  change (t.rows.modify i fun e => (e.1, f e.2))[j]? = some e at get
  rw [List.getElem?_modify] at get
  obtain ⟨old, here, rfl⟩ := Option.map_eq_some_iff.mp get
  have holds := all old (List.mem_of_getElem? here)
  split
  · exact keeps old.2 holds
  · exact holds

theorem All.map {W : Type} {Q : W → Prop} (all : t.All P) {f : V → W}
    (keeps : ∀ v, P v → Q (f v)) : (t.map f).All Q := by
  intro e mem
  obtain ⟨old, here, rfl⟩ := List.mem_map.mp mem
  exact keeps old.2 (all old here)

theorem All.imp {Q : V → Prop} (all : t.All P) (h : ∀ v, P v → Q v) : t.All Q :=
  fun e mem => h e.2 (all e mem)

/-! ## Size -/

def keys (t : Table V) : List UInt64 := t.rows.map Prod.fst

theorem nodup_keys (t : Table V) : t.keys.Nodup := by
  rw [keys, List.nodup_iff_getElem?_ne_getElem?]
  intro i j lt bound same
  simp only [List.length_map] at bound
  rw [List.getElem?_map, List.getElem?_map, List.getElem?_eq_getElem bound,
    List.getElem?_eq_getElem (lt.trans bound)] at same
  have left : t.slot t.rows[i].1 = some i :=
    slot_eq_some.mpr ⟨t.rows[i].2, List.getElem?_eq_getElem _⟩
  have right : t.slot t.rows[j].1 = some j :=
    slot_eq_some.mpr ⟨t.rows[j].2, List.getElem?_eq_getElem _⟩
  have eq : t.rows[i].1 = t.rows[j].1 := by simpa using same
  rw [eq, right] at left
  exact absurd (Option.some.inj left) (by omega)

theorem mem_keys {t : Table V} {id : UInt64} : id ∈ t.keys ↔ (t.find id).isSome = true := by
  rw [Option.isSome_iff_exists, keys, List.mem_map]
  constructor
  · rintro ⟨⟨key, v⟩, mem, rfl⟩
    exact ⟨v, find_eq_some.mpr (List.mem_iff_getElem?.mp mem)⟩
  · rintro ⟨v, found⟩
    exact ⟨(id, v), List.mem_iff_getElem?.mpr (find_eq_some.mp found), rfl⟩

theorem size_congr {W : Type} {t : Table V} {u : Table W}
    (same : ∀ id, (t.find id).isSome = (u.find id).isSome) : t.size = u.size := by
  have perm : t.keys.Perm u.keys := by
    rw [List.perm_ext_iff_of_nodup t.nodup_keys u.nodup_keys]
    intro id
    rw [mem_keys, mem_keys, same]
  simpa [keys, size] using perm.length_eq

theorem card_keys (t : Table V) : t.size = t.keys.toFinset.card := by
  rw [List.toFinset_card_of_nodup t.nodup_keys, keys, List.length_map, size]

/-- A table with the IDs of another one and some more. -/
theorem size_add_card {W : Type} {t : Table V} {u : Table W} {new : Finset UInt64}
    (ids : ∀ id, (t.find id).isSome = true ↔ (u.find id).isSome = true ∨ id ∈ new)
    (fresh : ∀ id ∈ new, u.find id = none) : t.size = u.size + new.card := by
  have union : t.keys.toFinset = u.keys.toFinset ∪ new := by
    ext id
    simp [mem_keys, ids]
  have disjoint : Disjoint u.keys.toFinset new := by
    rw [Finset.disjoint_left]
    intro id old mem
    rw [List.mem_toFinset, mem_keys, fresh id mem] at old
    cases old
  rw [card_keys, card_keys, union, Finset.card_union_of_disjoint disjoint]

/-- A table with some of the IDs of another one and of some more. -/
theorem size_le_add_card {W : Type} {t : Table V} {u : Table W} {new : Finset UInt64}
    (ids : ∀ id, (t.find id).isSome = true → (u.find id).isSome = true ∨ id ∈ new) :
    t.size ≤ u.size + new.card := by
  have sub : t.keys.toFinset ⊆ u.keys.toFinset ∪ new := by
    intro id mem
    simpa [mem_keys] using ids id (by simpa [mem_keys] using mem)
  rw [card_keys, card_keys]
  exact (Finset.card_le_card sub).trans (Finset.card_union_le _ _)

/-! ## Sums -/

def sum (f : V → Int) (t : Table V) : Int := (t.rows.map fun e => f e.2).sum

@[simp] theorem sum_empty (f : V → Int) : (empty : Table V).sum f = 0 := rfl

/-- A sum over the rows is a sum over all IDs. -/
theorem sum_eq_sum_find (f : V → Int) (t : Table V) :
    t.sum f = ∑ id : UInt64, ((t.find id).map f).getD 0 := by
  have rows : t.sum f = (t.keys.map fun id => ((t.find id).map f).getD 0).sum := by
    rw [sum, keys, List.map_map]
    congr 1
    refine List.map_congr_left fun e mem => ?_
    have found : t.find e.1 = some e.2 := find_eq_some.mpr (List.mem_iff_getElem?.mp mem)
    simp [found]
  rw [rows, ← List.sum_toFinset _ t.nodup_keys]
  refine Finset.sum_subset (Finset.subset_univ _) fun id _ out => ?_
  rw [List.mem_toFinset, mem_keys, Option.not_isSome_iff_eq_none] at out
  simp [out]

end Table

end OctetDB
