import OctetDB.Lib.Json.Value
import OctetDB.Lib.Base64

/-!
# Reading typed values out of JSON

A struct is read member by member: a member whose name equals a field's name up to case
sets that field, an unknown member is ignored and a later member overrides an earlier
one. `null` leaves a scalar field as it was and empties a byte string, list or map. A
member of the wrong type makes the whole read fail. Byte strings are base64 text.
-/

namespace OctetDB.Json

open Std

/-- The name with letters folded to upper case. U+017F and U+212A fold to `S` and `K`. -/
def foldName : Bytes → Bytes
  | [] => []
  | 0xC5 :: 0xBF :: rest => 0x53 :: foldName rest
  | 0xE2 :: 0x84 :: 0xAA :: rest => 0x4B :: foldName rest
  | b :: rest => (if 0x61 ≤ b ∧ b ≤ 0x7A then b - 0x20 else b) :: foldName rest

/-- A member name that selects the field `name`. -/
def named (key : Bytes) (name : String) : Bool := foldName key == foldName (ascii name)

def decodeString (j : Json) (old : Bytes) : Option Bytes :=
  match j with
  | null => some old
  | str s => some s
  | _ => none

def decodeBool (j : Json) (old : Bool) : Option Bool :=
  match j with
  | null => some old
  | bool b => some b
  | _ => none

def decodeUint (j : Json) (old : UInt64) : Option UInt64 :=
  match j with
  | null => some old
  | num literal => parseUint literal
  | _ => none

def decodeInt (j : Json) (old : Int64) : Option Int64 :=
  match j with
  | null => some old
  | num (0x2D :: digits) => do
    let n ← parseUint digits
    if n ≤ 0x8000000000000000 then some (Int64.ofInt (-n.toNat)) else none
  | num literal => do
    let n ← parseUint literal
    if n < 0x8000000000000000 then some n.toInt64 else none
  | _ => none

/-- One element of a byte string given as an array. -/
def decodeByte (j : Json) : Option UInt8 := do
  let n ← decodeUint j 0
  if n < 256 then some n.toUInt8 else none

def decodeBytes (j : Json) : Option Bytes :=
  match j with
  | null => some []
  | str s => Base64.decode s
  | arr items => items.mapM decodeByte
  | _ => none

def decodeList {α : Type} (element : Json → Option α) (j : Json) : Option (List α) :=
  match j with
  | null => some []
  | arr items => items.mapM element
  | _ => none

/-- The members of an object read into a struct, one after the other. -/
def decodeStruct {α : Type} (set : α → Bytes × Json → Option α) (zero : α) (j : Json) :
    Option α :=
  match j with
  | null => some zero
  | obj members => members.foldlM set zero
  | _ => none

/-- The members of an object read into a map from byte strings. -/
def decodeMap (j : Json) (old : ByteMap Bytes) : Option (ByteMap Bytes) :=
  match j with
  | null => some ∅
  | obj members =>
    members.foldlM (fun m field => (decodeBytes field.2).map fun v => m.insert field.1 v) old
  | _ => none

/-- The members of an object read into a map from byte strings that may be nil. -/
def decodeNilMap {α : Type} (element : Json → Option α) (j : Json) (old : Option (ByteMap α)) :
    Option (Option (ByteMap α)) :=
  match j with
  | null => some none
  | obj members =>
    (members.foldlM (fun m field => (element field.2).map fun v => m.insert field.1 v)
      (old.getD ∅)).map some
  | _ => none

/-- A byte string as a value: base64 text, and `null` when empty. -/
def encodeBytes (bs : Bytes) : Json := if bs = [] then null else str (Base64.encode bs)

/-- A map as an object, in ascending key order. -/
def encodeMap (m : ByteMap Bytes) : Json := obj (m.toList.map fun e => (e.1, encodeBytes e.2))

theorem plain_encodeBytes (depth : Nat) (bs : Bytes) : Plain depth (encodeBytes bs) := by
  unfold encodeBytes
  split
  · exact .null depth
  · exact .str depth _

@[simp] theorem coerce_str_encode (bs : Bytes) :
    coerce (str (Base64.encode bs)) = str (Base64.encode bs) := by
  simp [coerce, Utf8.coerce_of_valid]

@[simp] theorem decodeBytes_encodeBytes (bs : Bytes) :
    decodeBytes (coerce (encodeBytes bs)) = some bs := by
  unfold encodeBytes
  split
  · rename_i empty; simp [coerce, decodeBytes, empty]
  · simp [decodeBytes]

theorem plain_encodeMap (depth : Nat) (m : ByteMap Bytes) : Plain (depth + 1) (encodeMap m) := by
  refine .obj ?_
  intro member h
  obtain ⟨e, -, rfl⟩ := List.mem_map.mp h
  exact plain_encodeBytes depth e.2

/-- What a written map reads back as: its entries under coerced keys, a later entry
overriding an earlier one of the same coerced key. -/
def coerceMap (m : ByteMap Bytes) : ByteMap Bytes :=
  .ofList (m.toList.map fun e => (Utf8.coerce e.1, e.2)) compare

theorem decodeMap_encodeMap (m : ByteMap Bytes) :
    decodeMap (coerce (encodeMap m)) ∅ = some (coerceMap m) := by
  suffices ∀ (entries : List (Bytes × Bytes)) (acc : ByteMap Bytes),
      (entries.map fun e => (Utf8.coerce e.1, coerce (encodeBytes e.2))).foldlM
        (fun m field => (decodeBytes field.2).map fun v => m.insert field.1 v) acc =
      some (acc.insertMany (entries.map fun e => (Utf8.coerce e.1, e.2))) by
    rw [coerceMap, ExtTreeMap.ofList_eq_insertMany_empty]
    simpa [encodeMap, coerce, decodeMap, List.map_map, Function.comp_def] using this m.toList ∅
  intro entries
  induction entries with
  | nil => intro acc; simp
  | cons e entries ih => intro acc; simp [ih, ExtTreeMap.insertMany_cons]

theorem ofList_toList {V : Type} (m : ByteMap V) : .ofList m.toList compare = m := by
  apply ExtTreeMap.ext_getElem?
  intro k
  cases h : m[k]? with
  | some v =>
    exact ExtTreeMap.getElem?_ofList_of_mem (by simp)
      ExtTreeMap.distinct_keys_toList
      (ExtTreeMap.mem_toList_iff_getElem?_eq_some.mpr h)
  | none =>
    apply ExtTreeMap.getElem?_ofList_of_contains_eq_false
    have absent : k ∉ m := by
      rw [ExtTreeMap.mem_iff_isSome_getElem?, h]; simp
    simpa [ExtTreeMap.map_fst_toList_eq_keys] using absent

/-- A map whose keys are valid UTF-8 and whose values can be read back is read back. -/
theorem decodeNilMap_toList {V W : Type} {element : Json → Option W} {encode : V → Json}
    {read : V → W} {m : ByteMap V} (keys : ∀ k ∈ m, Utf8.valid k = true)
    (elements : ∀ (k : Bytes) (v : V), m[k]? = some v →
      element (coerce (encode v)) = some (read v)) :
    decodeNilMap element (coerce (obj (m.toList.map fun e => (e.1, encode e.2)))) none =
      some (some (m.map fun _ v => read v)) := by
  have loop : ∀ (entries : List (Bytes × V)) (acc : ByteMap W),
      (∀ e ∈ entries, Utf8.valid e.1 = true ∧ element (coerce (encode e.2)) = some (read e.2)) →
      (entries.map fun e => (Utf8.coerce e.1, coerce (encode e.2))).foldlM
        (fun m field => (element field.2).map fun v => m.insert field.1 v) acc =
      some (acc.insertMany (entries.map fun e => (e.1, read e.2))) := by
    intro entries
    induction entries with
    | nil => intro acc _; simp
    | cons e entries ih =>
      intro acc good
      obtain ⟨⟨valid, first⟩, later⟩ := List.forall_mem_cons.mp good
      simp [ih _ later, first, Utf8.coerce_of_valid valid, ExtTreeMap.insertMany_cons]
  have entries := loop m.toList ∅ fun e mem => by
    have get := ExtTreeMap.mem_toList_iff_getElem?_eq_some.mp mem
    refine ⟨keys e.1 ?_, elements e.1 e.2 get⟩
    rw [ExtTreeMap.mem_iff_isSome_getElem?, get]
    rfl
  have whole : (∅ : ByteMap W).insertMany (m.toList.map fun e => (e.1, read e.2)) =
      m.map fun _ v => read v := by
    rw [← ExtTreeMap.ofList_eq_insertMany_empty, ← ofList_toList (m.map fun _ v => read v),
      ExtTreeMap.toList_map]
  rw [whole] at entries
  simpa [coerce, decodeNilMap, Function.comp_def] using entries

/-- A written map is read back exactly when all its keys are valid UTF-8. -/
theorem coerceMap_eq_iff (m : ByteMap Bytes) :
    coerceMap m = m ↔ ∀ k ∈ m, Utf8.valid k = true := by
  constructor
  · intro h k hk
    rw [← h, coerceMap, ExtTreeMap.mem_ofList] at hk
    simp only [List.map_map, List.contains_iff_mem, List.mem_map, Function.comp_apply] at hk
    obtain ⟨e, -, rfl⟩ := hk
    exact Utf8.valid_coerce e.1
  · intro h
    have same : m.toList.map (fun e => (Utf8.coerce e.1, e.2)) = m.toList := by
      conv_rhs => rw [← List.map_id m.toList]
      apply List.map_congr_left
      intro e he
      have present : e.1 ∈ m := by
        rw [ExtTreeMap.mem_iff_isSome_getElem?,
          ExtTreeMap.mem_toList_iff_getElem?_eq_some.mp he]
        rfl
      simp [Utf8.coerce_of_valid (h _ present)]
    rw [coerceMap, same, ofList_toList]

/-! ## Texts in what is read -/

/-- All texts and member names in the value are valid UTF-8. -/
inductive Clean : Json → Prop where
  | null : Clean null
  | bool (b : Bool) : Clean (bool b)
  | num (literal : Bytes) : Clean (num literal)
  | str {s : Bytes} (valid : Utf8.valid s = true) : Clean (str s)
  | arr {items : List Json} (all : ∀ j ∈ items, Clean j) : Clean (arr items)
  | obj {members : List (Bytes × Json)} (names : ∀ m ∈ members, Utf8.valid m.1 = true)
      (all : ∀ m ∈ members, Clean m.2) : Clean (obj members)

theorem Plain.clean_coerce {depth : Nat} {j : Json} (plain : Plain depth j) : Clean (coerce j) := by
  induction plain with
  | null => exact .null
  | bool _ b => exact .bool b
  | num _ n => exact .num _
  | minus _ n => exact .num _
  | str _ s => exact .str (Utf8.valid_coerce s)
  | arr _ ih =>
    rw [coerce, coerceItems_eq]
    refine .arr fun j mem => ?_
    obtain ⟨item, listed, rfl⟩ := List.mem_map.mp mem
    exact ih item listed
  | obj _ ih =>
    rw [coerce, coerceMembers_eq]
    refine .obj (fun m mem => ?_) fun m mem => ?_ <;>
      obtain ⟨member, listed, rfl⟩ := List.mem_map.mp mem
    · exact Utf8.valid_coerce _
    · exact ih member listed

theorem Clean.decodeString {j : Json} (clean : Clean j) {old s : Bytes}
    (valid : Utf8.valid old = true) (h : decodeString j old = some s) : Utf8.valid s = true := by
  unfold Json.decodeString at h
  split at h
  · cases h
    exact valid
  · cases h
    cases clean
    assumption
  · cases h

theorem foldlM_keeps {α σ : Type} {f : σ → α → Option σ} {P : σ → Prop} {xs : List α}
    (step : ∀ s x t, x ∈ xs → P s → f s x = some t → P t) {s t : σ} (start : P s)
    (h : xs.foldlM f s = some t) : P t := by
  induction xs generalizing s with
  | nil =>
    obtain rfl := Option.some_inj.mp h
    exact start
  | cons x xs ih =>
    rw [List.foldlM_cons] at h
    obtain ⟨u, first, later⟩ := Option.bind_eq_some_iff.mp h
    exact ih (fun s y t mem => step s y t (List.mem_cons_of_mem _ mem))
      (step s x u List.mem_cons_self start first) later

/-- What every member of a struct keeps holds of the struct that is read. -/
theorem Clean.decodeStruct {α : Type} {set : α → Bytes × Json → Option α} {P : α → Prop}
    {zero t : α} {j : Json} (clean : Clean j) (start : P zero)
    (step : ∀ s field t, Clean field.2 → P s → set s field = some t → P t)
    (h : decodeStruct set zero j = some t) : P t := by
  unfold Json.decodeStruct at h
  split at h
  · cases h
    exact start
  · cases clean with
    | obj names all => exact foldlM_keeps (fun s x t mem => step s x t (all x mem)) start h
  · cases h

theorem Clean.decodeNilMap {α : Type} {element : Json → Option α} {P : α → Prop}
    {old m : Option (ByteMap α)} {j : Json} (clean : Clean j)
    (start : ∀ k v, (old.getD ∅)[k]? = some v → Utf8.valid k = true ∧ P v)
    (read : ∀ j v, Clean j → element j = some v → P v) (h : decodeNilMap element j old = some m) :
    ∀ k v, (m.getD ∅)[k]? = some v → Utf8.valid k = true ∧ P v := by
  unfold Json.decodeNilMap at h
  split at h
  · cases h
    simp
  · obtain ⟨result, loop, rfl⟩ := Option.map_eq_some_iff.mp h
    cases clean with
    | obj names all =>
      refine foldlM_keeps (P := fun m : ByteMap α => ∀ (k : Bytes) (v : α), m[k]? = some v →
        Utf8.valid k = true ∧ P v) (fun m field m' mem good set => ?_) start loop
      obtain ⟨v, value, rfl⟩ := Option.map_eq_some_iff.mp set
      intro k w get
      rw [ExtTreeMap.getElem?_insert] at get
      split at get
      · rename_i same
        rw [← LawfulEqCmp.eq_of_compare same]
        obtain rfl := Option.some_inj.mp get
        exact ⟨names _ mem, read _ _ (all _ mem) value⟩
      · exact good k w get
  · cases h

end OctetDB.Json
