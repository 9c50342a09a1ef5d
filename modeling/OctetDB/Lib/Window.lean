import OctetDB.Lib.Bytes

/-!
# A window of the last decisions

The window keeps the values of the last `horizon` identifiers in the order in which they were
retained: a map for lookup and a list for expiry. The two stay consistent as long as only
identifiers outside the window are retained.
-/

namespace OctetDB

open Std

structure Window (V : Type) where
  dedupe : ByteMap V := ∅
  dedupeIDs : List Bytes := []

namespace Window

variable {V : Type} {horizon : Nat} {w : Window V} {id : Bytes} {v : V}

/-- The window with one more value, its oldest one dropped beyond the horizon. -/
def retain (horizon : Nat) (w : Window V) (id : Bytes) (v : V) : Window V :=
  let dedupe := w.dedupe.insert id v
  let ids := w.dedupeIDs ++ [id]
  if ids.length > horizon then ⟨ids.head?.elim dedupe dedupe.erase, ids.tail⟩
  else ⟨dedupe, ids⟩

/-- The identifiers are listed once each, and there are at most `horizon` of them. -/
structure Consistent (horizon : Nat) (w : Window V) : Prop where
  nodup : w.dedupeIDs.Nodup
  mem_iff : ∀ id, id ∈ w.dedupe ↔ id ∈ w.dedupeIDs
  length_le : w.dedupeIDs.length ≤ horizon

theorem Consistent.empty (horizon : Nat) : Consistent horizon ({} : Window V) :=
  ⟨List.nodup_nil, by simp, Nat.zero_le _⟩

/-- The window after a retained value holds nothing but it and what it held before. -/
theorem getElem?_retain {k : Bytes} {u : V} (h : (w.retain horizon id v).dedupe[k]? = some u) :
    (k = id ∧ u = v) ∨ (k ≠ id ∧ w.dedupe[k]? = some u) := by
  have inserted : (w.dedupe.insert id v)[k]? = some u := by
    simp only [retain] at h
    split at h
    · cases ids : (w.dedupeIDs ++ [id]).head? with
      | none => simpa [ids] using h
      | some expired =>
        simp only [ids, Option.elim_some, ExtTreeMap.getElem?_erase] at h
        split at h
        · cases h
        · exact h
    · exact h
  rw [ExtTreeMap.getElem?_insert] at inserted
  by_cases same : k = id
  · exact .inl ⟨same, by simpa [same, eq_comm] using inserted⟩
  · exact .inr ⟨same, by simpa [Ne.symm same] using inserted⟩

/-- A window after retained values holds their identifiers and those from before at most. -/
theorem mem_foldl_retain {α : Type} {key : α → Bytes} {value : α → V} {xs : List α} {k : Bytes}
    (mem : k ∈ (xs.foldl (fun w x => w.retain horizon (key x) (value x)) w).dedupe) :
    k ∈ w.dedupe ∨ k ∈ xs.map key := by
  induction xs generalizing w with
  | nil => exact .inl mem
  | cons x xs ih =>
    rcases ih mem with old | later
    · obtain ⟨u, get⟩ := Option.isSome_iff_exists.mp
        (ExtTreeMap.mem_iff_isSome_getElem?.mp old)
      rcases getElem?_retain get with ⟨rfl, -⟩ | ⟨-, get⟩
      · exact .inr (by simp)
      · exact .inl (ExtTreeMap.mem_iff_isSome_getElem?.mpr (by rw [get]; rfl))
    · exact .inr (by simp [later])

theorem retain_of_room (room : w.dedupeIDs.length < horizon) :
    w.retain horizon id v = ⟨w.dedupe.insert id v, w.dedupeIDs ++ [id]⟩ := by
  simp only [retain, List.length_append, List.length_singleton]
  rw [if_neg (by omega)]

/-- A full window that is consistent starts with an identifier other than the new one. -/
theorem retain_eq (c : Consistent horizon w) (fresh : id ∉ w.dedupe) (pos : 0 < horizon) :
    (w.dedupeIDs.length < horizon ∧
      w.retain horizon id v = ⟨w.dedupe.insert id v, w.dedupeIDs ++ [id]⟩) ∨
    ∃ expired ids, w.dedupeIDs = expired :: ids ∧ ids.length + 1 = horizon ∧ expired ≠ id ∧
      w.retain horizon id v = ⟨(w.dedupe.insert id v).erase expired, ids ++ [id]⟩ := by
  have bound := c.length_le
  by_cases room : w.dedupeIDs.length < horizon
  · exact .inl ⟨room, retain_of_room room⟩
  · cases ids : w.dedupeIDs with
    | nil => rw [ids, List.length_nil] at room; omega
    | cons expired rest =>
      rw [ids, List.length_cons] at room bound
      refine .inr ⟨expired, rest, rfl, by omega, ?_, ?_⟩
      · rintro rfl
        exact fresh ((c.mem_iff _).mpr (by simp [ids]))
      · simp only [retain, ids, List.cons_append, List.length_cons, List.length_append,
          List.length_nil]
        rw [if_pos (by omega)]
        rfl

theorem Consistent.retain (c : Consistent horizon w) (fresh : id ∉ w.dedupe)
    (pos : 0 < horizon) : Consistent horizon (w.retain horizon id v) := by
  have absent : id ∉ w.dedupeIDs := fun h => fresh ((c.mem_iff id).mpr h)
  have nodup := c.nodup
  obtain ⟨room, eq⟩ | ⟨expired, ids, split, full, other, eq⟩ := retain_eq (v := v) c fresh pos
  · rw [eq]
    refine ⟨?_, ?_, by simp; omega⟩
    · exact List.nodup_append.mpr ⟨nodup, by simp, by
        intro a ha b hb; simp only [List.mem_singleton] at hb; subst hb; rintro rfl
        exact absent ha⟩
    · intro k
      have old := c.mem_iff k
      simp only [ExtTreeMap.mem_insert, List.mem_append, List.mem_singleton]
      grind
  · rw [eq]
    rw [split] at nodup absent
    obtain ⟨out, nodup⟩ := List.nodup_cons.mp nodup
    refine ⟨?_, ?_, by simp; omega⟩
    · exact List.nodup_append.mpr ⟨nodup, by simp, by
        intro a ha b hb; simp only [List.mem_singleton] at hb; subst hb; rintro rfl
        exact absent (by simp [ha])⟩
    · intro k
      have old := c.mem_iff k
      rw [split] at old
      simp only [ExtTreeMap.mem_erase, ExtTreeMap.mem_insert, List.mem_append,
        List.mem_cons] at old ⊢
      grind

/-- The values of a window, oldest first. -/
def values (d : V) (w : Window V) : List V := w.dedupeIDs.map fun id => w.dedupe.getD id d

/-- A retained value goes to the end of the values, and the oldest one leaves a full window. -/
theorem values_retain (d : V) (c : Consistent horizon w) (fresh : id ∉ w.dedupe)
    (pos : 0 < horizon) :
    (w.retain horizon id v).values d = w.values d ++ [v] ∨
      (w.dedupeIDs ≠ [] ∧ (w.retain horizon id v).values d = (w.values d).tail ++ [v]) := by
  have absent : id ∉ w.dedupeIDs := fun h => fresh ((c.mem_iff id).mpr h)
  obtain ⟨-, eq⟩ | ⟨expired, ids, split, -, other, eq⟩ := retain_eq (v := v) c fresh pos
  · left
    rw [eq]
    simp only [values, List.map_append, List.map_cons, List.map_nil,
      ExtTreeMap.getD_insert_self, List.append_left_inj]
    apply List.map_congr_left
    intro k hk
    have ne : id ≠ k := fun h => absent (h ▸ hk)
    simp [ExtTreeMap.getD_insert, ne]
  · right
    rw [eq]
    refine ⟨by simp [split], ?_⟩
    have nodup := c.nodup
    rw [split] at nodup absent
    obtain ⟨out, -⟩ := List.nodup_cons.mp nodup
    simp only [values, split, List.map_append, List.map_cons, List.map_nil, List.tail_cons]
    congr 1
    · apply List.map_congr_left
      intro k hk
      have ne : id ≠ k := fun h => absent (by simp [h, hk])
      have ne' : expired ≠ k := fun h => out (h ▸ hk)
      simp [ExtTreeMap.getD_erase, ExtTreeMap.getD_insert, ne, ne']
    · simp [ExtTreeMap.getD_erase, other]

/-! ## What a window has seen -/

/-- Equal elements of the list are more than `n` positions apart. -/
def Spread {α : Type} (n : Nat) (xs : List α) : Prop :=
  ∀ (i j : Nat) (a : α), i < j → xs[i]? = some a → xs[j]? = some a → i + n < j

theorem mem_rtake {α : Type} {n : Nat} {xs : List α} {a : α} :
    a ∈ xs.rtake n ↔ ∃ i, xs.length ≤ i + n ∧ xs[i]? = some a := by
  simp only [List.rtake, List.mem_iff_getElem?, List.getElem?_drop]
  constructor
  · rintro ⟨i, get⟩
    exact ⟨_, by omega, get⟩
  · rintro ⟨i, late, get⟩
    exact ⟨i - (xs.length - n), by rwa [Nat.add_sub_cancel' (by omega)]⟩

theorem map_rtake {α β : Type} (f : α → β) (n : Nat) (xs : List α) :
    (xs.rtake n).map f = (xs.map f).rtake n := by
  simp [List.rtake]

theorem spread_nil {α : Type} (n : Nat) : Spread n ([] : List α) := by simp [Spread]

theorem Spread.of_append {α : Type} {n : Nat} {xs ys : List α} (h : Spread n (xs ++ ys)) :
    Spread n xs := by
  intro i j a less first second
  have bound := (List.getElem?_eq_some_iff.mp second).1
  refine h i j a less ?_ ?_ <;> rwa [List.getElem?_append_left (by omega)]

/-- One more element keeps the list spread if it is not among the last ones. -/
theorem spread_concat {α : Type} {n : Nat} {xs : List α} {a : α} :
    Spread n (xs ++ [a]) ↔ Spread n xs ∧ a ∉ xs.rtake n := by
  have inner {i : Nat} {b : α} (get : xs[i]? = some b) :
      i < xs.length ∧ (xs ++ [a])[i]? = some b := by
    have bound := (List.getElem?_eq_some_iff.mp get).1
    exact ⟨bound, by rw [List.getElem?_append_left bound, get]⟩
  constructor
  · intro spread
    refine ⟨fun i j b less first second => ?_, fun recent => ?_⟩
    · exact spread i j b less (inner first).2 (inner second).2
    · obtain ⟨i, late, get⟩ := mem_rtake.mp recent
      have := spread i xs.length a (inner get).1 (inner get).2 (by simp)
      omega
  · rintro ⟨spread, old⟩ i j b less first second
    have bound := (List.getElem?_eq_some_iff.mp second).1
    rw [List.length_append, List.length_singleton] at bound
    rw [List.getElem?_append_left (by omega)] at first
    by_cases last : j = xs.length
    · subst last
      obtain rfl : a = b := by simpa using second
      by_contra near
      exact old (mem_rtake.mpr ⟨i, by omega, first⟩)
    · rw [List.getElem?_append_left (by omega)] at second
      exact spread i j b less first second

/-- The window holds the last of the entries that were retained. -/
structure Saw (horizon : Nat) (w : Window V) (entries : List (Bytes × V)) : Prop extends
    Consistent horizon w where
  ids : w.dedupeIDs = (entries.map (·.1)).rtake horizon
  values : ∀ e ∈ entries.rtake horizon, w.dedupe[e.1]? = some e.2

namespace Saw

variable {entries : List (Bytes × V)}

theorem empty (horizon : Nat) : Saw horizon ({} : Window V) [] :=
  ⟨.empty horizon, by simp, by simp⟩

theorem mem_iff_rtake (saw : Saw horizon w entries) (id : Bytes) :
    id ∈ w.dedupe ↔ id ∈ (entries.map (·.1)).rtake horizon := by
  rw [saw.mem_iff, saw.ids]

theorem length_ids (saw : Saw horizon w entries) :
    w.dedupeIDs.length = min horizon entries.length := by
  rw [saw.ids]
  simp [List.rtake]
  omega

theorem retain (saw : Saw horizon w entries) (fresh : id ∉ w.dedupe) (pos : 0 < horizon) :
    Saw horizon (w.retain horizon id v) (entries ++ [(id, v)]) := by
  obtain ⟨n, rfl⟩ : ∃ n, horizon = n + 1 := ⟨horizon - 1, by omega⟩
  have length := saw.length_ids
  have known {e : Bytes × V} (mem : e ∈ entries.rtake n) : w.dedupe[e.1]? = some e.2 := by
    obtain ⟨i, late, get⟩ := mem_rtake.mp mem
    exact saw.values e (mem_rtake.mpr ⟨i, by omega, get⟩)
  have other {e : Bytes × V} (mem : e ∈ entries.rtake n) : id ≠ e.1 := by
    rintro rfl
    exact fresh (ExtTreeMap.mem_iff_isSome_getElem?.mpr (by rw [known mem]; rfl))
  have consistent := saw.toConsistent.retain (v := v) fresh pos
  obtain ⟨room, eq⟩ | ⟨expired, ids, split, full, ne, eq⟩ :=
    retain_eq (v := v) saw.toConsistent fresh pos
  · refine ⟨consistent, ?_, ?_⟩
    · rw [eq, List.map_append, List.map_singleton, List.rtake_concat_succ, saw.ids]
      simp only [List.rtake, List.length_map, List.append_left_inj]
      rw [show entries.length - (n + 1) = 0 by omega, show entries.length - n = 0 by omega]
    · intro e mem
      rw [eq]
      rcases List.mem_append.mp (List.rtake_concat_succ entries n _ ▸ mem) with old | new
      · simpa [ExtTreeMap.getElem?_insert, other old] using known old
      · obtain rfl := List.mem_singleton.mp new
        simp
  · have later : ids = (entries.map (·.1)).rtake n := by
      have old := saw.ids
      rw [split] at old length
      rw [List.length_cons] at length
      rw [← @List.tail_cons _ expired ids, old]
      simp only [List.rtake, List.length_map, List.tail_drop]
      rw [show entries.length - (n + 1) + 1 = entries.length - n by omega]
    refine ⟨consistent, ?_, ?_⟩
    · rw [eq, List.map_append, List.map_singleton, List.rtake_concat_succ, later]
    · intro e mem
      rw [eq]
      rcases List.mem_append.mp (List.rtake_concat_succ entries n _ ▸ mem) with old | new
      · have kept : expired ≠ e.1 := by
          have nodup := saw.nodup
          rw [split, List.nodup_cons, later, ← map_rtake] at nodup
          exact fun same => nodup.1 (same ▸ List.mem_map_of_mem old)
        simpa [ExtTreeMap.getElem?_erase, ExtTreeMap.getElem?_insert, kept, other old]
          using known old
      · obtain rfl := List.mem_singleton.mp new
        simp [ne]

end Saw

/-! ## Rebuilding a window from its values -/

/-- The window with values added in order, none expired. -/
def addAll (w : Window V) (entries : List (Bytes × V)) : Window V :=
  entries.foldl (fun w e => ⟨w.dedupe.insert e.1 e.2, w.dedupeIDs ++ [e.1]⟩) w

theorem addAll_eq (w : Window V) (entries : List (Bytes × V)) :
    w.addAll entries = ⟨w.dedupe.insertMany entries, w.dedupeIDs ++ entries.map (·.1)⟩ := by
  induction entries generalizing w with
  | nil => simp [addAll]
  | cons e entries ih =>
    obtain ⟨id, v⟩ := e
    rw [addAll, List.foldl_cons, ← addAll, ih]
    simp [ExtTreeMap.insertMany_cons]

/-- As long as there is room, nothing expires. -/
theorem foldl_retain_eq_addAll {α : Type} {key : α → Bytes} {value : α → V} {xs : List α}
    (room : w.dedupeIDs.length + xs.length ≤ horizon) :
    xs.foldl (fun w x => w.retain horizon (key x) (value x)) w =
      w.addAll (xs.map fun x => (key x, value x)) := by
  induction xs generalizing w with
  | nil => rfl
  | cons x xs ih =>
    rw [List.length_cons] at room
    rw [List.foldl_cons, retain_of_room (by omega), ih (by simp; omega)]
    rfl

/-- A consistent window is what its values, taken in order, add up to. -/
theorem Consistent.addAll_eq (c : Consistent horizon w) {entries : List (Bytes × V)}
    (ids : entries.map (·.1) = w.dedupeIDs)
    (values : ∀ e ∈ entries, w.dedupe[e.1]? = some e.2) : ({} : Window V).addAll entries = w := by
  obtain ⟨dedupe, dedupeIDs⟩ := w
  simp only at ids values
  rw [Window.addAll_eq, ← ExtTreeMap.ofList_eq_insertMany_empty, ids, List.nil_append]
  congr 1
  apply ExtTreeMap.ext_getElem?
  intro k
  have listed := c.mem_iff k
  by_cases present : k ∈ dedupeIDs
  · rw [← ids] at present
    obtain ⟨e, he, rfl⟩ := List.mem_map.mp present
    rw [values e he]
    refine ExtTreeMap.getElem?_ofList_of_mem (by simp) ?_ he
    have nodup : (entries.map (·.1)).Nodup := ids ▸ c.nodup
    exact (List.pairwise_map.mp nodup).imp (by simp)
  · have absent : dedupe[k]? = none := by
      rw [← Option.not_isSome_iff_eq_none, ← ExtTreeMap.mem_iff_isSome_getElem?, listed]
      exact present
    rw [absent]
    apply ExtTreeMap.getElem?_ofList_of_contains_eq_false
    rw [ids]
    simpa using present

end Window

end OctetDB
