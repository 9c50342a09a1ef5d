import OctetDB.Catalog.Topology
import OctetDB.Keyed.Codec

/-!
# The catalog file is read back

A topology whose names and type identities are valid UTF-8 and whose bounds fit a Go integer is
read from its file as it was written.
-/

namespace OctetDB

open Std Json

/-! ## What can be read back -/

/-- A bound as it is in the file and in a Go integer. -/
def FitsInt (n : Int) : Prop := 0 ≤ n ∧ n < 2 ^ 63

structure DatasetInfo.Readable (info : DatasetInfo) : Prop where
  bucketName : Utf8.valid info.bucketName = true
  name : Utf8.valid info.name = true
  kind : Utf8.valid info.kind = true
  origin : Utf8.valid info.origin = true
  typeIdentity : Utf8.valid info.typeIdentity = true
  maxRecords : FitsInt info.bounds.maxRecords
  maxValueBytes : FitsInt info.bounds.maxValueBytes

structure CatalogState.Readable (c : CatalogState) : Prop where
  identity : Utf8.valid c.databaseID = true
  buckets : ∀ bucket ∈ c.buckets, Utf8.valid bucket = true
  names : ∀ bucket name info, c.dataset? bucket name = some info → Utf8.valid name = true
  datasets : ∀ bucket name info, c.dataset? bucket name = some info → info.Readable

/-! ## The round trip -/

variable {n : Int} {info : DatasetInfo}

theorem decodeInt_encodeInt (fits : FitsInt n) (old : Int64) :
    (decodeInt (encodeInt n) old).map (·.toInt) = some n := by
  obtain ⟨nonneg, small⟩ := fits
  obtain ⟨n, rfl⟩ := Int.eq_ofNat_of_zero_le nonneg
  have small : n < 2 ^ 63 := by exact_mod_cast small
  have word : (UInt64.ofNat n).toNat = n := by
    rw [UInt64.toNat_ofNat']
    omega
  have parsed := parseUint_decimal (UInt64.ofNat n)
  rw [word] at parsed
  have low : UInt64.ofNat n < 0x8000000000000000 := by
    rw [UInt64.lt_iff_toNat_lt, word]
    exact small
  have value : (UInt64.ofNat n).toInt64.toInt = n := by
    rw [UInt64.toInt64_ofNat']
    exact Int64.toInt_ofNat_of_lt small
  rw [encodeInt, if_neg (by omega), Int.natAbs_natCast]
  unfold decodeInt
  split
  · cases ‹_›
  · rename_i digits eq
    exact absurd (Json.num.inj eq) (decimal_ne_minus n digits)
  · rename_i literal _ eq
    obtain rfl := Json.num.inj eq
    simp only [parsed, Option.bind_eq_bind, Option.bind_some, low, if_true, Option.map_some, value]
  · rename_i other
    exact absurd rfl (other _)

@[simp] theorem coerce_encodeInt (n : Int) : coerce (encodeInt n) = encodeInt n := rfl

theorem DatasetBounds.set_maxRecords (b : DatasetBounds) (fits : FitsInt n) :
    b.set (ascii "max_records", encodeInt n) = some { b with maxRecords := n } := by
  obtain ⟨m, read, rfl⟩ := Option.map_eq_some_iff.mp
    (decodeInt_encodeInt fits (.ofInt b.maxRecords))
  simp +decide [DatasetBounds.set, read]

theorem DatasetBounds.set_maxValueBytes (b : DatasetBounds) (fits : FitsInt n) :
    b.set (ascii "max_value_bytes", encodeInt n) = some { b with maxValueBytes := n } := by
  obtain ⟨m, read, rfl⟩ := Option.map_eq_some_iff.mp
    (decodeInt_encodeInt fits (.ofInt b.maxValueBytes))
  simp +decide [DatasetBounds.set, read]

theorem DatasetInfo.ofJson_toJson (h : info.Readable) :
    DatasetInfo.ofJson (coerce info.toJson) = some info := by
  have bucketName := Utf8.coerce_of_valid h.bucketName
  have name := Utf8.coerce_of_valid h.name
  have kind := Utf8.coerce_of_valid h.kind
  have origin := Utf8.coerce_of_valid h.origin
  have typeIdentity := Utf8.coerce_of_valid h.typeIdentity
  have fields : Utf8.coerce (ascii "max_records") = ascii "max_records" ∧
    Utf8.coerce (ascii "max_value_bytes") = ascii "max_value_bytes" := by decide
  have records (b : DatasetBounds) := b.set_maxRecords h.maxRecords
  have value (b : DatasetBounds) := b.set_maxValueBytes h.maxValueBytes
  by_cases empty : info.typeIdentity = [] <;>
    simp +decide [DatasetInfo.ofJson, DatasetInfo.toJson, DatasetInfo.set, decodeStruct, empty,
      Json.coerce, decodeString, decodeUint, bucketName, name, kind, origin, typeIdentity, fields,
      records, value]
  · exact congrArg (fun t => { info with typeIdentity := t }) empty.symm

/-! ## The whole file -/

def CatalogState.Ints (c : CatalogState) : Prop :=
  ∀ bucket name info, c.dataset? bucket name = some info →
    FitsInt info.bounds.maxRecords ∧ FitsInt info.bounds.maxValueBytes

theorem DatasetInfo.plain_toJson (records : FitsInt info.bounds.maxRecords)
    (value : FitsInt info.bounds.maxValueBytes) : Plain 2 info.toJson := by
  have plain {n : Int} (fits : FitsInt n) : Plain 0 (encodeInt n) := by
    rw [encodeInt, if_neg (by have := fits.1; omega)]
    exact .num 0 _
  refine .obj ?_
  simp only [List.mem_cons, List.mem_append, List.not_mem_nil, or_false]
  rintro member ((rfl | rfl | rfl | rfl | rfl) | typed | rfl)
  · exact .num 1 _
  · exact .str 1 _
  · exact .str 1 _
  · exact .str 1 _
  · exact .str 1 _
  · split at typed
    · cases typed
    · obtain rfl := List.mem_singleton.mp typed
      exact .str 1 _
  · refine .obj ?_
    simp only [List.mem_cons, List.not_mem_nil, or_false]
    rintro member (rfl | rfl)
    · exact plain records
    · exact plain value

theorem CatalogState.Ints.plain_toJson {c : CatalogState} (ints : c.Ints) : Plain 6 c.toJson := by
  refine .obj ?_
  simp only [List.mem_cons, List.not_mem_nil, or_false]
  rintro member (rfl | rfl | rfl)
  · exact .str 5 _
  · exact .num 5 _
  · refine .obj fun member mem => ?_
    obtain ⟨⟨bucket, datasets⟩, listed, rfl⟩ := List.mem_map.mp mem
    refine .obj fun member mem => ?_
    obtain rfl := List.mem_singleton.mp mem
    refine .obj fun member mem => ?_
    obtain ⟨⟨name, info⟩, get, rfl⟩ := List.mem_map.mp mem
    rw [ExtTreeMap.mem_toList_iff_getElem?_eq_some] at listed get
    obtain ⟨records, value⟩ := ints bucket name info (by simp [CatalogState.dataset?, listed, get])
    exact DatasetInfo.plain_toJson records value

theorem CatalogState.toState_decoded (c : CatalogState) : c.decoded.toState = c := by
  have same : (c.buckets.map fun _ bucket => some bucket).map (fun _ bucket => bucket.getD ∅) =
      c.buckets := ExtTreeMap.ext_getElem? fun name => by
    rw [ExtTreeMap.getElem?_map, ExtTreeMap.getElem?_map]
    cases c.buckets[name]? <;> rfl
  simp only [CatalogState.decoded, DecodedCatalog.toState, Option.getD_some, same]

namespace CatalogState.Readable

variable {c : CatalogState} (h : c.Readable)
include h

theorem dataset_mem {bucket name : Bytes} {datasets : CatalogBucket}
    (listed : c.buckets[bucket]? = some datasets) (get : datasets[name]? = some info) :
    Utf8.valid name = true ∧ info.Readable := by
  have found : c.dataset? bucket name = some info := by
    rw [CatalogState.dataset?, listed, Option.bind_some, get]
  exact ⟨h.names _ _ _ found, h.datasets _ _ _ found⟩

theorem ints : c.Ints := fun bucket name info get =>
  ⟨(h.datasets bucket name info get).maxRecords, (h.datasets bucket name info get).maxValueBytes⟩

theorem unmarshal_render : DecodedCatalog.unmarshal c.toJson.render = some c.decoded := by
  have plain := h.ints.plain_toJson.mono (show 6 ≤ maxNestingDepth by decide)
  have datasets (bucket : Bytes) (datasets : CatalogBucket)
      (listed : c.buckets[bucket]? = some datasets) :
      decodeStruct setBucket none (coerce (.obj [(ascii "datasets",
        .obj (datasets.toList.map fun e => (e.1, e.2.toJson)))])) = some (some datasets) := by
    have read := @decodeNilMap_toList _ _ DatasetInfo.ofJson DatasetInfo.toJson id datasets
      (fun name mem => by
        obtain ⟨info, get⟩ := Option.isSome_iff_exists.mp
          (ExtTreeMap.mem_iff_isSome_getElem?.mp mem)
        exact (h.dataset_mem listed get).1)
      fun name info get => DatasetInfo.ofJson_toJson (h.dataset_mem listed get).2
    have same : datasets.map (fun _ v => id v) = datasets :=
      ExtTreeMap.ext_getElem? fun name => by simp
    rw [same] at read
    rw [coerce, coerceMembers_eq]
    simpa +decide [decodeStruct, setBucket] using read
  have buckets := @decodeNilMap_toList _ _ (decodeStruct setBucket none)
    (fun datasets : CatalogBucket => .obj [(ascii "datasets",
      .obj (datasets.toList.map fun e => (e.1, e.2.toJson)))]) some c.buckets h.buckets datasets
  rw [coerce, coerceMembers_eq, List.map_map] at buckets
  rw [DecodedCatalog.unmarshal, parse_render plain, Option.bind_some, CatalogState.toJson, coerce,
    coerceMembers_eq]
  simp +decide [decodeStruct, DecodedCatalog.set, Json.coerce, decodeString, decodeUint,
    Utf8.coerce_of_valid h.identity, CatalogState.decoded]
  exact buckets

/-- The file of a topology is read as the topology; what is left is the check of the records. -/
theorem loadOrCreateCatalog_file {identity : Identity} {fault : Option (Nat × String)}
    {keyed : KeyedDB} {d : Directory} (file : d.catalog = some c.file) :
    loadOrCreateCatalog identity fault keyed d =
      (validateCatalogState c.decoded keyed).map fun _ => (c, { d with catalogTmp := none }) := by
  have envelope := Envelope.unmarshal_seal (show Utf8.valid catalogMagic = true by decide)
    h.ints.plain_toJson (by decide)
  simp only [loadOrCreateCatalog, file, CatalogState.file, envelope]
  rw [if_neg (by simp), if_neg (by simp), h.unmarshal_render]
  simp only [c.toState_decoded]
  cases validateCatalogState c.decoded keyed <;> rfl

end CatalogState.Readable

/-! ## What is read is valid -/

theorem DatasetInfo.set_typeIdentity {info' : DatasetInfo} {field : Bytes × Json}
    (clean : Clean field.2) (valid : Utf8.valid info.typeIdentity = true)
    (h : info.set field = some info') : Utf8.valid info'.typeIdentity = true := by
  unfold DatasetInfo.set at h
  repeat' split at h
  any_goals
    obtain ⟨v, read, rfl⟩ := Option.map_eq_some_iff.mp h
    first
      | exact valid
      | exact clean.decodeString valid read
  obtain rfl := Option.some_inj.mp h
  exact valid

structure CatalogState.NamesValid (c : CatalogState) : Prop where
  buckets : ∀ bucket ∈ c.buckets, Utf8.valid bucket = true
  names : ∀ bucket name info, c.dataset? bucket name = some info → Utf8.valid name = true
  types : ∀ bucket name info, c.dataset? bucket name = some info →
    Utf8.valid info.typeIdentity = true

/-- Whatever was written, what is read has valid names and type identities. -/
theorem CatalogState.Ints.unmarshal_valid {c : CatalogState} (ints : c.Ints)
    {state : DecodedCatalog}
    (h : DecodedCatalog.unmarshal c.toJson.render = some state) :
    Utf8.valid state.databaseID = true ∧ state.toState.NamesValid := by
  have plain := ints.plain_toJson.mono (show 6 ≤ maxNestingDepth by decide)
  rw [DecodedCatalog.unmarshal, parse_render plain, Option.bind_some] at h
  -- The datasets of a bucket that is read.
  let Good (bucket : Option CatalogBucket) : Prop := ∀ name info,
    (bucket.getD ∅)[name]? = some info → Utf8.valid name = true ∧
      Utf8.valid info.typeIdentity = true
  have bucket (j : Json) (b : Option CatalogBucket) (clean : Clean j)
      (read : decodeStruct setBucket none j = some b) : Good b := by
    refine clean.decodeStruct (P := Good) (by simp [Good]) (fun s field t clean good set => ?_) read
    unfold setBucket at set
    split at set
    · refine clean.decodeNilMap good (fun j info clean read => ?_) set
      exact clean.decodeStruct (P := fun info => Utf8.valid info.typeIdentity = true) (by decide)
        (fun _ _ _ clean valid set => DatasetInfo.set_typeIdentity clean valid set) read
    · cases set
      exact good
  obtain ⟨identity, entry⟩ := plain.clean_coerce.decodeStruct
    (P := fun state => Utf8.valid state.databaseID = true ∧
      ∀ name b, (state.buckets.getD ∅)[name]? = some b → Utf8.valid name = true ∧ Good b)
    (by simp +decide) (fun s field t clean good set => by
      unfold DecodedCatalog.set at set
      split at set
      · obtain ⟨v, read, rfl⟩ := Option.map_eq_some_iff.mp set
        exact ⟨clean.decodeString good.1 read, good.2⟩
      split at set
      · obtain ⟨v, -, rfl⟩ := Option.map_eq_some_iff.mp set
        exact good
      split at set
      · obtain ⟨v, read, rfl⟩ := Option.map_eq_some_iff.mp set
        exact ⟨good.1, clean.decodeNilMap good.2 bucket read⟩
      · cases set
        exact good) h
  have found (name dataset : Bytes) (info : DatasetInfo)
      (get : state.toState.dataset? name dataset = some info) :
      Utf8.valid dataset = true ∧ Utf8.valid info.typeIdentity = true := by
    obtain ⟨datasets, listed, get⟩ := Option.bind_eq_some_iff.mp get
    rw [DecodedCatalog.toState, ExtTreeMap.getElem?_map] at listed
    obtain ⟨b, read, rfl⟩ := Option.map_eq_some_iff.mp listed
    exact (entry name b read).2 dataset info get
  refine ⟨identity, fun name mem => ?_, fun b n info get => (found b n info get).1,
    fun b n info get => (found b n info get).2⟩
  rw [ExtTreeMap.mem_iff_isSome_getElem?, DecodedCatalog.toState,
    ExtTreeMap.getElem?_map, Option.isSome_map] at mem
  obtain ⟨b, read⟩ := Option.isSome_iff_exists.mp mem
  exact (entry name b read).1

end OctetDB
