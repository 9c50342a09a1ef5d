import OctetDB.Lib.Search
import OctetDB.Lib.Bytes

/-!
# The product cache

The cache of a product list answers queries from tables that it builds once: the rows of each
category and the active rows of each region one after the other, with the offset at which each
begins, and all rows in the order of their prices, which is searched by bisection. Every query
has a counterpart that filters the list. Cursors yield what both find, row by row.
-/

namespace OctetDB.M5

/-! ## Products -/

def categoryCount : Nat := 8
def regionCount : Nat := 6
def statusActive : UInt8 := 1

structure Product where
  id : UInt32 := 0
  category : UInt8 := 0
  status : UInt8 := 0
  priceCents : UInt32 := 0
  ratingTenths : UInt8 := 0
  region : UInt8 := 0
  name : Bytes := []
  deriving DecidableEq, Repr

structure Projection where
  id : UInt32
  priceCents : UInt32
  deriving DecidableEq, Repr

/-! ## Cursors -/

section Loop

variable {α : Type} (read : Nat → Option (Option α)) (stop : Nat)

/-- The loop of `Next` from a position on: the next row that is not passed over, and the position
behind it. `none` stands for an index that is out of range. -/
def advance : Nat → Nat → Option (Option (α × Nat))
  | 0, _ => some none
  | fuel + 1, pos =>
    if pos < stop then
      match read pos with
      | none => none
      | some (some row) => some (some (row, pos + 1))
      | some none => advance fuel (pos + 1)
    else some none

/-- The rows of a loop over `Next`. -/
def collect : Nat → Nat → Option (List α)
  | 0, _ => some []
  | fuel + 1, pos =>
    match advance read stop (stop - pos) pos with
    | none => none
    | some none => some []
    | some (some (row, next)) => (collect fuel next).map (row :: ·)

end Loop

/-- A cursor over a list yields what it finds at the positions it has left, in their order. -/
theorem collect_eq {α β : Type} {read : Nat → Option (Option β)} {l : List α} {f : α → Option β}
    (reads : ∀ i (less : i < l.length), read i = some (f l[i])) {n pos fuel : Nat}
    (left : l.length - pos = n) (enough : n ≤ fuel) :
    collect read l.length fuel pos = some ((l.drop pos).filterMap f) := by
  induction n generalizing pos fuel with
  | zero =>
    rw [List.drop_of_length_le (by omega)]
    cases fuel <;> simp [collect, left, advance]
  | succ n ih =>
    obtain ⟨fuel, rfl⟩ : ∃ k, fuel = k + 1 := ⟨fuel - 1, by omega⟩
    have less : pos < l.length := by omega
    have later : l.length - (pos + 1) = n := by omega
    rw [collect, left, advance, if_pos less, reads pos less, List.drop_eq_getElem_cons less,
      List.filterMap_cons]
    cases f l[pos] with
    | some row => simp only [ih later (by omega : n ≤ fuel), Option.map_some]
    | none =>
      have skip := ih later (by omega : n ≤ fuel + 1)
      rwa [collect, later] at skip

inductive CursorMode where
  | rows
  | ids
  | categoryScan
  | priceScan
  deriving DecidableEq, Repr

structure Cursor where
  rows : List Product := []
  ids : List UInt32 := []
  pos : Nat := 0
  stop : Nat := 0
  category : UInt8 := 0
  low : UInt32 := 0
  high : UInt32 := 0
  mode : CursorMode := .rows

def idsCursor (rows : List Product) (ids : List UInt32) : Cursor :=
  { rows := rows, ids := ids, stop := ids.length, mode := .ids }

def categoryScanCursor (rows : List Product) (category : UInt8) : Cursor :=
  { rows := rows, stop := rows.length, category := category, mode := .categoryScan }

def priceScanCursor (rows : List Product) (low high : UInt32) : Cursor :=
  { rows := rows, stop := rows.length, low := low, high := high, mode := .priceScan }

/-- The row at a position, if the cursor does not pass over it. -/
def Cursor.read (c : Cursor) (pos : Nat) : Option (Option Product) :=
  match c.mode with
  | .rows => (c.rows[pos]?).map some
  | .ids => (c.ids[pos]?).bind fun id => (c.rows[id.toNat]?).map some
  | .categoryScan =>
    (c.rows[pos]?).map fun row => if row.category = c.category then some row else none
  | .priceScan =>
    (c.rows[pos]?).map fun row =>
      if row.priceCents ≥ c.low ∧ row.priceCents ≤ c.high then some row else none

def Cursor.next (c : Cursor) : Option (Option (Product × Cursor)) :=
  (advance c.read c.stop (c.stop - c.pos) c.pos).map fun found =>
    found.map fun (row, pos) => (row, { c with pos := pos })

def Cursor.toList (c : Cursor) : Option (List Product) :=
  collect c.read c.stop (c.stop - c.pos) c.pos

structure ProjectionCursor where
  rows : List Projection := []
  products : List Product := []
  region : UInt8 := 0
  pos : Nat := 0
  stop : Nat := 0
  scan : Bool := false

def projectionsCursor (rows : List Projection) : ProjectionCursor :=
  { rows := rows, stop := rows.length }

def activeRegionScanCursor (rows : List Product) (region : UInt8) : ProjectionCursor :=
  { products := rows, region := region, stop := rows.length, scan := true }

def Product.projection (row : Product) : Projection := ⟨row.id, row.priceCents⟩

def ProjectionCursor.read (c : ProjectionCursor) (pos : Nat) : Option (Option Projection) :=
  if c.scan then
    (c.products[pos]?).map fun row =>
      if row.status = statusActive ∧ row.region = c.region then some row.projection else none
  else (c.rows[pos]?).map some

def ProjectionCursor.toList (c : ProjectionCursor) : Option (List Projection) :=
  collect c.read c.stop (c.stop - c.pos) c.pos

/-! ## The cache -/

/-- The elements at the indices from `start` to `stop`, if the bounds are in range. -/
def slice {α : Type} (l : List α) (start stop : Nat) : Option (List α) :=
  if start ≤ stop ∧ stop ≤ l.length then some ((l.take stop).drop start) else none

/-- Groups of rows one after the other, and the offset at which each begins; the last offset is
the end. -/
structure Grouped (α : Type) where
  rows : List α := []
  offsets : List Nat := []

def grouped {α : Type} (count : Nat) (pick : Nat → List α) : Grouped α :=
  let g := (List.range count).foldl
    (fun (g : Grouped α) k => ⟨g.rows ++ pick k, g.offsets ++ [g.rows.length]⟩) {}
  { g with offsets := g.offsets ++ [g.rows.length] }

def Grouped.group {α : Type} (g : Grouped α) (k : Nat) : Option (List α) := do
  let start ← g.offsets[k]?
  let stop ← g.offsets[k + 1]?
  slice g.rows start stop

def rowAt (rows : List Product) (id : UInt32) : Product := rows.getD id.toNat {}

def priceLess (rows : List Product) (i j : UInt32) : Bool :=
  let left := rowAt rows i
  let right := rowAt rows j
  if left.priceCents = right.priceCents then left.id < right.id
  else left.priceCents < right.priceCents

/-- What `sort.Slice` promises: some order of the elements in which none is less than one before
it. -/
structure SliceSort where
  sort : List Product → List UInt32 → List UInt32
  perm : ∀ rows ids, (sort rows ids).Perm ids
  sorted : ∀ rows ids, (sort rows ids).Pairwise fun i j => priceLess rows j i = false

structure RuntimeCache where
  rows : List Product
  categories : Grouped UInt32
  priceRows : List UInt32
  activeRegions : Grouped Projection

def newRuntimeCache (sort : SliceSort) (rows : List Product) : RuntimeCache where
  rows := rows
  categories := grouped categoryCount fun category =>
    (rows.zipIdx.filter fun (row, _) => row.category.toNat == category).map fun (_, idx) =>
      UInt32.ofNat idx
  priceRows := sort.sort rows ((List.range rows.length).map UInt32.ofNat)
  activeRegions := grouped regionCount fun region =>
    (rows.filter fun row => row.status == statusActive && row.region.toNat == region).map
      Product.projection

def lowerPrice (rows : List Product) (ids : List UInt32) (target : UInt32) : Nat :=
  Search.search ids.length fun mid =>
    !((rowAt rows (ids.getD mid 0)).priceCents < target)

def sortedPriceCursor (rows : List Product) (ids : List UInt32) (low high : UInt32) :
    Option Cursor :=
  let start := lowerPrice rows ids low
  let stop :=
    if high ≠ UInt32.ofNat (2 ^ 32 - 1) then lowerPrice rows ids (high + 1) else ids.length
  (slice ids start stop).map (idsCursor rows)

namespace RuntimeCache

variable (c : RuntimeCache)

def findByCategory (category : UInt8) : Option Cursor :=
  if category.toNat ≥ categoryCount then some {}
  else (c.categories.group category.toNat).map (idsCursor c.rows)

def productsWithPriceBetween (low high : UInt32) : Option Cursor :=
  if high < low then some {} else sortedPriceCursor c.rows c.priceRows low high

def activeProductsInRegion (region : UInt8) : Option ProjectionCursor :=
  if region.toNat ≥ regionCount then some {}
  else (c.activeRegions.group region.toNat).map projectionsCursor

end RuntimeCache

/-! ## What the cursors find -/

variable {ids : List UInt32}

section Find

variable (rows : List Product)

theorem toList_idsCursor (inside : ∀ id ∈ ids, id.toNat < rows.length) :
    (idsCursor rows ids).toList = some (ids.map (rowAt rows)) := by
  rw [← List.filterMap_eq_map]
  refine collect_eq (fun i less => ?_) rfl le_rfl
  have row := inside ids[i] (List.getElem_mem less)
  simp [Cursor.read, idsCursor, less, row, rowAt]

theorem toList_categoryScanCursor (category : UInt8) :
    (categoryScanCursor rows category).toList = some (rows.filter (·.category = category)) := by
  rw [← List.filterMap_eq_filter]
  refine collect_eq (fun i less => ?_) rfl le_rfl
  simp only [Cursor.read, categoryScanCursor, List.getElem?_eq_getElem less, Option.map_some]
  grind [Option.guard]

theorem toList_priceScanCursor (low high : UInt32) : (priceScanCursor rows low high).toList =
    some (rows.filter fun row => low ≤ row.priceCents ∧ row.priceCents ≤ high) := by
  rw [← List.filterMap_eq_filter]
  refine collect_eq (fun i less => ?_) rfl le_rfl
  simp only [Cursor.read, priceScanCursor, List.getElem?_eq_getElem less, Option.map_some]
  grind [Option.guard]

theorem toList_activeRegionScanCursor (region : UInt8) :
    (activeRegionScanCursor rows region).toList = some ((rows.filter fun row =>
      row.status = statusActive ∧ row.region = region).map Product.projection) := by
  rw [← List.filterMap_eq_filter, List.map_filterMap]
  refine collect_eq (fun i less => ?_) rfl le_rfl
  simp only [ProjectionCursor.read, activeRegionScanCursor, List.getElem?_eq_getElem less,
    Option.map_some, if_true]
  grind [Option.guard]

theorem toList_projectionsCursor (projections : List Projection) :
    (projectionsCursor projections).toList = some projections := by
  conv_rhs => rw [← List.filterMap_some (l := projections)]
  refine collect_eq (fun i less => ?_) rfl le_rfl
  simp [ProjectionCursor.read, projectionsCursor, less]

end Find

/-! ## What the tables hold -/

section Groups

variable {α : Type} (pick : Nat → List α)

theorem grouped_eq (count : Nat) : grouped count pick =
    ⟨(List.range count).flatMap pick,
      (List.range (count + 1)).map fun k => ((List.range k).flatMap pick).length⟩ := by
  suffices loop : (List.range count).foldl
      (fun (g : Grouped α) k => ⟨g.rows ++ pick k, g.offsets ++ [g.rows.length]⟩) {} =
      ⟨(List.range count).flatMap pick,
        (List.range count).map fun k => ((List.range k).flatMap pick).length⟩ by
    rw [grouped, loop, List.range_succ, List.map_append]
    rfl
  induction count with
  | zero => rfl
  | succ count ih => simp [List.range_succ, ih]

theorem group_grouped {count k : Nat} (less : k < count) :
    (grouped count pick).group k = some (pick k) := by
  obtain ⟨rest, rfl⟩ : ∃ rest, count = k + 1 + rest := ⟨count - (k + 1), by omega⟩
  have rows : (List.range (k + 1 + rest)).flatMap pick = (List.range k).flatMap pick ++
      (pick k ++ (List.range rest).flatMap fun i => pick (k + 1 + i)) := by
    simp [List.range_add, List.range_succ, List.flatMap_map]
  have start := List.getElem?_range (show k < k + 1 + rest + 1 by omega)
  have stop := List.getElem?_range (show k + 1 < k + 1 + rest + 1 by omega)
  have last : ((List.range (k + 1)).flatMap pick).length =
      ((List.range k).flatMap pick ++ pick k).length := by simp [List.range_succ]
  simp only [Grouped.group, grouped_eq, rows, List.getElem?_map, start, stop, Option.map_some,
    Option.bind_eq_bind, Option.bind_some, slice, last]
  rw [if_pos (by simp only [List.length_append]; omega), ← List.append_assoc, List.take_left,
    List.drop_left]

end Groups

theorem rowAt_ofNat {rows : List Product} (few : rows.length < 2 ^ 32) {i : Nat}
    (less : i < rows.length) :
    (UInt32.ofNat i).toNat = i ∧ rowAt rows (UInt32.ofNat i) = rows[i] := by
  have same : (UInt32.ofNat i).toNat = i := by
    rw [UInt32.toNat_ofNat', Nat.mod_eq_of_lt (by omega)]
  exact ⟨same, by simp [rowAt, same, less]⟩

/-- What the comparison of the price table says of two rows in order. -/
theorem priceLess_eq_false {rows : List Product} {i j : UInt32} (h : priceLess rows j i = false) :
    (rowAt rows i).priceCents < (rowAt rows j).priceCents ∨
      ((rowAt rows i).priceCents = (rowAt rows j).priceCents ∧
        (rowAt rows i).id ≤ (rowAt rows j).id) := by
  simp only [priceLess] at h
  grind

/-- The indices of the rows that a filter leaves, as rows. -/
theorem map_rowAt_zipIdx {rows : List Product} (few : rows.length < 2 ^ 32) (p : Product → Bool) :
    ((rows.zipIdx.filter fun e => p e.1).map fun e => UInt32.ofNat e.2).map (rowAt rows) =
      rows.filter p := by
  have rest : rows.filter p = (rows.zipIdx.filter fun e => p e.1).map Prod.fst := by
    conv_lhs => rw [← List.zipIdx_map_fst 0 rows, List.filter_map]
    rfl
  rw [rest, List.map_map]
  refine List.map_congr_left fun e mem => ?_
  obtain ⟨-, less, eq⟩ := List.mem_zipIdx (List.mem_of_mem_filter mem)
  simp only [Nat.zero_add, Nat.sub_zero] at less eq
  rw [Function.comp_apply, (rowAt_ofNat few less).2, eq]

theorem map_rowAt_range {rows : List Product} (few : rows.length < 2 ^ 32) :
    ((List.range rows.length).map UInt32.ofNat).map (rowAt rows) = rows := by
  refine List.ext_getElem (by simp) fun i _ less => ?_
  simp [(rowAt_ofNat few less).2]

section Prices

variable {rows : List Product}

def priceAt (rows : List Product) (id : UInt32) : Nat := (rowAt rows id).priceCents.toNat

section

variable (order : ids.Pairwise fun i j => priceAt rows i ≤ priceAt rows j)
include order

/-- In a table in the order of prices, the bisection finds where the prices reach the target. -/
theorem lowerPrice_split
    (target : UInt32) :
    let k := lowerPrice rows ids target
    k ≤ ids.length ∧ (∀ id ∈ ids.take k, priceAt rows id < target.toNat) ∧
      ∀ id ∈ ids.drop k, target.toNat ≤ priceAt rows id := by
  intro k
  have at_ (i : Nat) (less : i < ids.length) :
      (!decide ((rowAt rows (ids.getD i 0)).priceCents < target)) = true ↔
        target.toNat ≤ priceAt rows ids[i] := by
    simp [priceAt, less, UInt32.le_iff_toNat_le]
  have splits : Search.Splits _ ids.length k := Search.search_splits fun i j le less holds => by
    rw [at_ j less]
    have before := (at_ i (by omega)).mp holds
    rcases Nat.lt_or_eq_of_le le with earlier | rfl
    · exact before.trans (List.pairwise_iff_getElem.mp order i j (by omega) less earlier)
    · exact before
  obtain ⟨le, low, high⟩ := splits
  refine ⟨le, fun id mem => ?_, fun id mem => ?_⟩
  · obtain ⟨i, less, rfl⟩ := List.mem_take_iff_getElem.mp mem
    have here := low i (by omega)
    rw [← Bool.not_eq_true, at_ i (by omega)] at here
    exact not_le.mp here
  · obtain ⟨i, less, rfl⟩ := List.mem_drop_iff_getElem.mp mem
    exact (at_ _ (by omega)).mp (high _ (by omega) (by omega))

/-- The end of the part of the table that a query reads: where the prices exceed the upper bound,
also if that is the highest price. -/
theorem upperPrice_split
    (high : UInt32) :
    let k := if high ≠ UInt32.ofNat (2 ^ 32 - 1) then lowerPrice rows ids (high + 1) else ids.length
    k ≤ ids.length ∧ (∀ id ∈ ids.take k, priceAt rows id ≤ high.toNat) ∧
      ∀ id ∈ ids.drop k, high.toNat < priceAt rows id := by
  by_cases top : high = UInt32.ofNat (2 ^ 32 - 1)
  · simp only [top, ne_eq, not_true_eq_false, if_false]
    refine ⟨le_rfl, fun id _ => ?_, by simp⟩
    have := (rowAt rows id).priceCents.toNat_lt
    exact Nat.le_of_lt_succ this
  · obtain ⟨le, below, above⟩ := lowerPrice_split order (high + 1)
    have small : high.toNat ≠ 2 ^ 32 - 1 := fun eq => top (UInt32.toNat_inj.mp eq)
    have next : (high + 1).toNat = high.toNat + 1 := by
      have := high.toNat_lt
      rw [UInt32.toNat_add, UInt32.toNat_one]
      omega
    rw [next] at below above
    simp only [ne_eq, top, not_false_eq_true, if_true]
    exact ⟨le, fun id mem => Nat.le_of_lt_succ (below id mem), above⟩

/-- The part of the table between two bounds is what a filter leaves of it. -/
theorem sortedPriceCursor_eq
    {low high : UInt32} (le : low ≤ high) : sortedPriceCursor rows ids low high =
      some (idsCursor rows (ids.filter fun id =>
        low.toNat ≤ priceAt rows id ∧ priceAt rows id ≤ high.toNat)) := by
  obtain ⟨inside, below, above⟩ := lowerPrice_split order low
  obtain ⟨within, under, beyond⟩ := upperPrice_split order high
  rw [sortedPriceCursor]
  generalize lowerPrice rows ids low = start at *
  generalize (if high ≠ UInt32.ofNat (2 ^ 32 - 1) then _ else _) = stop at *
  have bounds : low.toNat ≤ high.toNat := UInt32.le_iff_toNat_le.mp le
  have ascends : start ≤ stop := by
    by_contra less
    have first := below ids[stop] (List.mem_take_iff_getElem.mpr ⟨stop, by omega, rfl⟩)
    have second := beyond ids[stop] (List.mem_drop_iff_getElem.mpr ⟨0, by omega, by simp⟩)
    omega
  have parts : ids = ids.take start ++ ((ids.take stop).drop start ++ ids.drop stop) := by
    rw [← List.append_assoc, ← min_eq_left ascends, ← List.take_take, min_eq_left ascends,
      List.take_append_drop, List.take_append_drop]
  rw [slice, if_pos ⟨ascends, within⟩, Option.map_some]
  conv_rhs => rw [parts]
  rw [List.filter_append, List.filter_append, List.filter_eq_nil_iff.mpr, List.filter_eq_self.mpr,
    List.filter_eq_nil_iff.mpr, List.append_nil, List.nil_append]
  · intro id mem
    have := beyond id mem
    simp only [decide_eq_true_eq]
    omega
  · intro id mem
    have low := above id (List.mem_of_mem_take (List.drop_take ▸ mem))
    have high := under id (List.mem_of_mem_drop mem)
    simp only [decide_eq_true_eq]
    omega
  · intro id mem
    have := below id mem
    simp only [decide_eq_true_eq]
    omega

end

end Prices

/-! ## Queries -/

/-- For every list of products, the queries of its cache yield what filters of the list yield:
those by category and by region in the order of the list, and those by price as often, in the
order of prices and then of IDs. -/
theorem indexed_reads_eq_scans (sort : SliceSort) (rows : List Product)
    (few : rows.length < 2 ^ 32) :
    let c := newRuntimeCache sort rows
    (∀ low high, ∃ cursor found scanned, c.productsWithPriceBetween low high = some cursor ∧
      cursor.toList = some found ∧ (priceScanCursor rows low high).toList = some scanned ∧
      found.Perm scanned ∧ found.Pairwise fun a b => a.priceCents < b.priceCents ∨
        (a.priceCents = b.priceCents ∧ a.id ≤ b.id)) ∧
    (∀ category : UInt8, category.toNat < categoryCount → ∃ cursor found,
      c.findByCategory category = some cursor ∧ cursor.toList = some found ∧
      (categoryScanCursor rows category).toList = some found) ∧
    ∀ region : UInt8, region.toNat < regionCount → ∃ cursor found,
      c.activeProductsInRegion region = some cursor ∧ cursor.toList = some found ∧
      (activeRegionScanCursor rows region).toList = some found := by
  intro c
  refine ⟨fun low high => ?_, fun category known => ?_, fun region known => ?_⟩
  · have perm : (c.priceRows.map (rowAt rows)).Perm rows := by
      have all := ((sort.perm rows ((List.range rows.length).map UInt32.ofNat)).map (rowAt rows))
      rwa [map_rowAt_range few] at all
    have sorted := sort.sorted rows ((List.range rows.length).map UInt32.ofNat)
    have inside : ∀ id ∈ c.priceRows, id.toNat < rows.length := by
      intro id mem
      obtain ⟨i, less, rfl⟩ := List.mem_map.mp ((sort.perm rows _).mem_iff.mp mem)
      have less := List.mem_range.mp less
      rwa [(rowAt_ofNat few less).1]
    rw [toList_priceScanCursor]
    by_cases empty : high < low
    · refine ⟨{}, [], _, if_pos empty, rfl, rfl, ?_, .nil⟩
      rw [List.filter_eq_nil_iff.mpr fun row _ => ?_]
      grind
    · have order : c.priceRows.Pairwise fun i j => priceAt rows i ≤ priceAt rows j :=
        sorted.imp fun less => by
          have := priceLess_eq_false less
          grind [priceAt, UInt32.lt_iff_toNat_lt]
      have within := sortedPriceCursor_eq order (UInt32.not_lt.mp empty)
      refine ⟨_, _, _, (if_neg empty).trans within,
        toList_idsCursor rows fun id mem => inside id (List.mem_of_mem_filter mem), rfl, ?_, ?_⟩
      · have same := perm.filter fun row =>
          decide (low ≤ row.priceCents ∧ row.priceCents ≤ high)
        rw [List.filter_map] at same
        have within (id : UInt32) :
            decide (low.toNat ≤ priceAt rows id ∧ priceAt rows id ≤ high.toNat) =
              decide (low ≤ (rowAt rows id).priceCents ∧ (rowAt rows id).priceCents ≤ high) :=
          decide_eq_decide.mpr (by simp [priceAt, UInt32.le_iff_toNat_le])
        simp only [within]
        exact same
      · exact List.pairwise_map.mpr ((sorted.imp priceLess_eq_false).filter _)
  · have group := group_grouped (fun category => (rows.zipIdx.filter fun e =>
      e.1.category.toNat == category).map fun e => UInt32.ofNat e.2) known
    have rest := map_rowAt_zipIdx few fun row => row.category.toNat == category.toNat
    refine ⟨_, _, (if_neg (not_le.mpr known)).trans
      (congrArg (Option.map (idsCursor rows)) group), toList_idsCursor rows fun id mem => ?_, ?_⟩
    · obtain ⟨e, found, rfl⟩ := List.mem_map.mp mem
      obtain ⟨-, less, -⟩ := List.mem_zipIdx (List.mem_of_mem_filter found)
      rw [Nat.zero_add] at less
      rwa [(rowAt_ofNat few less).1]
    · rw [rest, toList_categoryScanCursor]
      simp [beq_eq_decide, UInt8.toNat_inj]
  · have group := group_grouped (fun region => (rows.filter fun row =>
      row.status == statusActive && row.region.toNat == region).map Product.projection) known
    refine ⟨_, _, (if_neg (not_le.mpr known)).trans (congrArg (Option.map projectionsCursor) group),
      toList_projectionsCursor _, ?_⟩
    rw [toList_activeRegionScanCursor]
    simp [beq_eq_decide, UInt8.toNat_inj]

/-- A stable sort is one of those that `sort.Slice` may be. -/
def stableSort : SliceSort where
  sort rows ids := ids.mergeSort fun i j => !priceLess rows j i
  perm _ _ := List.mergeSort_perm _ _
  sorted rows ids := by
    have sorted := @List.pairwise_mergeSort _ (fun i j => !priceLess rows j i)
      (fun i j k first second => by grind [priceLess]) (fun i j => by grind [priceLess]) ids
    simpa using sorted

/-- Three products, of which the middle one has another price than is asked for. -/
theorem indexed_reads_eq_scans_three :
    let rows : List Product :=
      [{ id := 2, priceCents := 5 }, { id := 1, priceCents := 9 }, { id := 3, priceCents := 5 }]
    ∃ cursor found, (newRuntimeCache stableSort rows).productsWithPriceBetween 5 8 =
        some cursor ∧ cursor.toList = some found ∧
      found.Perm [{ id := 2, priceCents := 5 }, { id := 3, priceCents := 5 }] := by
  intro rows
  obtain ⟨cursor, found, scanned, query, yields, scan, perm, -⟩ :=
    (indexed_reads_eq_scans stableSort rows (by decide)).1 5 8
  have five : some scanned = some [{ id := 2, priceCents := 5 }, { id := 3, priceCents := 5 }] :=
    scan.symm.trans (by decide)
  obtain rfl := Option.some.inj five
  exact ⟨cursor, found, query, yields, perm⟩

end OctetDB.M5
