import OctetDB.Catalog.Tx
import OctetDB.Lib.Json.Decode
import OctetDB.Lib.Checksum

/-!
# The JSON form of log records and snapshots

Log records and snapshots are written as JSON. Identifiers are byte strings and are written
as JSON strings, so a byte that is not part of valid UTF-8 is read back as U+FFFD; values and
results are written as base64 and survive unchanged.
-/

namespace OctetDB

open Json

/-! ## Log records -/

def KeyedMutation.toJson (m : KeyedMutation) : Json :=
  .obj ((ascii "key", .str m.key) ::
    ((if m.value = [] then [] else [(ascii "value", encodeBytes m.value)]) ++
      (if m.delete then [(ascii "delete", .bool true)] else [])))

def KeyedMutation.set (m : KeyedMutation) (field : Bytes × Json) : Option KeyedMutation :=
  if named field.1 "key" then (decodeString field.2 m.key).map ({ m with key := · })
  else if named field.1 "value" then (decodeBytes field.2).map ({ m with value := · })
  else if named field.1 "delete" then (decodeBool field.2 m.delete).map ({ m with delete := · })
  else some m

def KeyedMutation.ofJson (j : Json) : Option KeyedMutation := decodeStruct KeyedMutation.set {} j

def KeyedWALRecord.toJson (r : KeyedWALRecord) : Json :=
  .obj ([(ascii "sequence", .num (decimal r.sequence.toNat)),
      (ascii "command_id", .str r.commandID), (ascii "applied", .bool r.applied)] ++
    ((if r.code = [] then [] else [(ascii "code", .str r.code)]) ++
      ((if r.result = [] then [] else [(ascii "result", encodeBytes r.result)]) ++
        (if r.mutations = [] then []
          else [(ascii "mutations", .arr (r.mutations.map KeyedMutation.toJson))]))))

def KeyedWALRecord.set (r : KeyedWALRecord) (field : Bytes × Json) : Option KeyedWALRecord :=
  if named field.1 "sequence" then (decodeUint field.2 r.sequence).map ({ r with sequence := · })
  else if named field.1 "command_id" then
    (decodeString field.2 r.commandID).map ({ r with commandID := · })
  else if named field.1 "applied" then
    (decodeBool field.2 r.applied).map ({ r with applied := · })
  else if named field.1 "code" then (decodeString field.2 r.code).map ({ r with code := · })
  else if named field.1 "result" then (decodeBytes field.2).map ({ r with result := · })
  else if named field.1 "mutations" then
    (decodeList KeyedMutation.ofJson field.2).map ({ r with mutations := · })
  else some r

def KeyedWALRecord.ofJson (j : Json) : Option KeyedWALRecord :=
  decodeStruct KeyedWALRecord.set {} j

def KeyedWALRecord.marshal (r : KeyedWALRecord) : Bytes := r.toJson.render

def KeyedWALRecord.unmarshal (text : Bytes) : Option KeyedWALRecord :=
  (parse text).bind KeyedWALRecord.ofJson

/-! ## Snapshots -/

structure KeyedSnapshot where
  sequence : UInt64 := 0
  records : ByteMap Bytes := ∅
  dedupe : List KeyedWALRecord := []

def KeyedSnapshot.toJson (s : KeyedSnapshot) : Json :=
  .obj [(ascii "sequence", .num (decimal s.sequence.toNat)), (ascii "records", encodeMap s.records),
    (ascii "dedupe", .arr (s.dedupe.map KeyedWALRecord.toJson))]

def KeyedSnapshot.set (s : KeyedSnapshot) (field : Bytes × Json) : Option KeyedSnapshot :=
  if named field.1 "sequence" then (decodeUint field.2 s.sequence).map ({ s with sequence := · })
  else if named field.1 "records" then
    (decodeMap field.2 s.records).map ({ s with records := · })
  else if named field.1 "dedupe" then
    (decodeList KeyedWALRecord.ofJson field.2).map ({ s with dedupe := · })
  else some s

def KeyedSnapshot.marshal (s : KeyedSnapshot) : Bytes := s.toJson.render

def KeyedSnapshot.unmarshal (text : Bytes) : Option KeyedSnapshot :=
  (parse text).bind (decodeStruct KeyedSnapshot.set {})

/-- The checksummed wrapper around a snapshot or a catalog; `payload` is taken as raw text. -/
structure Envelope where
  magic : Bytes := []
  version : Int64 := 0
  payload : Bytes := []
  sha256 : Bytes := []
  deriving DecidableEq, Repr

/-- The wrapper around a payload that is the text of a value. -/
def sealEnvelope (magic : Bytes) (payload : Json) : Bytes :=
  (Json.obj [(ascii "magic", .str magic), (ascii "version", .num (decimal 1)),
    (ascii "payload", payload),
    (ascii "sha256", .str (hexText (OctetDB.sha256 payload.render)))]).render

def Envelope.set (e : Envelope) (m : Member) : Option Envelope :=
  if named m.name "magic" then (decodeString m.value e.magic).map ({ e with magic := · })
  else if named m.name "version" then (decodeInt m.value e.version).map ({ e with version := · })
  else if named m.name "payload" then some { e with payload := m.raw }
  else if named m.name "sha256" then (decodeString m.value e.sha256).map ({ e with sha256 := · })
  else some e

def Envelope.unmarshal (text : Bytes) : Option Envelope :=
  match parseDocument text with
  | some members => members.foldlM Envelope.set {}
  -- A text that is not an object: `null` leaves the envelope empty, other values are refused.
  | none => match parse text with
    | some .null => some {}
    | _ => none

/-! ## Reading back what was written -/

/-- What a written mutation reads back as. -/
def KeyedMutation.coerce (m : KeyedMutation) : KeyedMutation := { m with key := Utf8.coerce m.key }

/-- What a written record reads back as. -/
def KeyedWALRecord.coerce (r : KeyedWALRecord) : KeyedWALRecord :=
  { r with
    commandID := Utf8.coerce r.commandID
    code := Utf8.coerce r.code
    mutations := r.mutations.map KeyedMutation.coerce }

/-- The command ID, the code and every key of the record are valid UTF-8. -/
def KeyedWALRecord.IdentifiersValid (r : KeyedWALRecord) : Prop :=
  Utf8.valid r.commandID = true ∧ Utf8.valid r.code = true ∧
    ∀ m ∈ r.mutations, Utf8.valid m.key = true

instance (r : KeyedWALRecord) : Decidable r.IdentifiersValid :=
  inferInstanceAs (Decidable (_ ∧ _ ∧ _))

theorem mapM_ofJson_toJson {α : Type} {toJson : α → Json} {ofJson : Json → Option α}
    {coerced : α → α} (read : ∀ a, ofJson (Json.coerce (toJson a)) = some (coerced a))
    (items : List α) :
    (items.map fun a => Json.coerce (toJson a)).mapM ofJson = some (items.map coerced) := by
  induction items with
  | nil => rfl
  | cons a items ih => simp [read, ih]

theorem KeyedMutation.ofJson_coerce_toJson (m : KeyedMutation) :
    KeyedMutation.ofJson (Json.coerce m.toJson) = some m.coerce := by
  obtain ⟨key, value, delete⟩ := m
  by_cases hv : value = [] <;> cases delete <;>
    simp +decide [KeyedMutation.ofJson, KeyedMutation.toJson, KeyedMutation.set, decodeStruct,
      Json.coerce, hv, KeyedMutation.coerce, decodeString, decodeBool]

theorem KeyedWALRecord.ofJson_coerce_toJson (r : KeyedWALRecord) :
    KeyedWALRecord.ofJson (Json.coerce r.toJson) = some r.coerce := by
  have list := mapM_ofJson_toJson KeyedMutation.ofJson_coerce_toJson r.mutations
  obtain ⟨sequence, id, applied, code, result, mutations⟩ := r
  by_cases hc : code = [] <;> by_cases hr : result = [] <;> by_cases hm : mutations = [] <;>
    simp +decide [KeyedWALRecord.ofJson, KeyedWALRecord.toJson, KeyedWALRecord.set,
      decodeStruct, Json.coerce, hc, hr, hm, KeyedWALRecord.coerce, decodeString, decodeBool,
      decodeUint, decodeList, list, Function.comp_def]

theorem KeyedMutation.plain_toJson (m : KeyedMutation) : Plain 1 m.toJson := by
  refine .obj ?_
  simp only [List.mem_cons, List.mem_append]
  rintro member (rfl | h | h)
  · exact .str 0 _
  · split at h
    · cases h
    · obtain rfl := List.mem_singleton.mp h; exact plain_encodeBytes 0 _
  · split at h
    · obtain rfl := List.mem_singleton.mp h; exact .bool 0 _
    · cases h

theorem KeyedWALRecord.plain_toJson (r : KeyedWALRecord) : Plain 3 r.toJson := by
  refine .obj ?_
  simp only [List.mem_cons, List.mem_append, List.not_mem_nil, or_false]
  rintro member ((rfl | rfl | rfl) | h | h | h)
  · exact .num 2 _
  · exact .str 2 _
  · exact .bool 2 _
  · split at h
    · cases h
    · obtain rfl := List.mem_singleton.mp h; exact .str 2 _
  · split at h
    · cases h
    · obtain rfl := List.mem_singleton.mp h; exact plain_encodeBytes 2 _
  · split at h
    · cases h
    · obtain rfl := List.mem_singleton.mp h
      refine .arr ?_
      intro j hj
      obtain ⟨m, -, rfl⟩ := List.mem_map.mp hj
      exact m.plain_toJson

theorem KeyedWALRecord.unmarshal_marshal (r : KeyedWALRecord) :
    unmarshal r.marshal = some r.coerce := by
  have plain := r.plain_toJson.mono (show 3 ≤ maxNestingDepth by decide)
  simp [unmarshal, marshal, parse_render plain, r.ofJson_coerce_toJson]

theorem KeyedWALRecord.coerce_eq_iff (r : KeyedWALRecord) : r.coerce = r ↔ r.IdentifiersValid := by
  obtain ⟨sequence, id, applied, code, result, mutations⟩ := r
  simp only [KeyedWALRecord.coerce, IdentifiersValid, mk.injEq, true_and, Utf8.coerce_eq_iff]
  refine and_congr_right fun _ => and_congr_right fun _ => ?_
  conv_lhs => rhs; rw [← List.map_id mutations]
  rw [List.map_inj_left]
  refine forall₂_congr fun m _ => ?_
  obtain ⟨key, value, delete⟩ := m
  simp [KeyedMutation.coerce, Utf8.coerce_eq_iff]

theorem KeyedWALRecord.coerce_of_valid {r : KeyedWALRecord} (h : r.IdentifiersValid) :
    r.coerce = r := r.coerce_eq_iff.mpr h

theorem KeyedSnapshot.plain_toJson (s : KeyedSnapshot) : Plain 5 s.toJson := by
  refine .obj ?_
  simp only [List.mem_cons, List.not_mem_nil, or_false]
  rintro member (rfl | rfl | rfl)
  · exact .num 4 _
  · exact plain_encodeMap 3 _
  · refine .arr ?_
    intro j hj
    obtain ⟨r, -, rfl⟩ := List.mem_map.mp hj
    exact r.plain_toJson

theorem KeyedSnapshot.unmarshal_marshal (s : KeyedSnapshot) :
    unmarshal s.marshal =
      some ⟨s.sequence, coerceMap s.records, s.dedupe.map KeyedWALRecord.coerce⟩ := by
  have plain := s.plain_toJson.mono (show 5 ≤ maxNestingDepth by decide)
  have list := mapM_ofJson_toJson KeyedWALRecord.ofJson_coerce_toJson s.dedupe
  rw [unmarshal, marshal, parse_render plain]
  simp +decide [KeyedSnapshot.toJson, KeyedSnapshot.set, Json.coerce, decodeStruct, decodeUint,
    decodeList, decodeMap_encodeMap, list, Function.comp_def]

/-- A sealed payload is found unchanged in its envelope. -/
theorem Envelope.unmarshal_seal {magic : Bytes} (valid : Utf8.valid magic = true) {payload : Json}
    {depth : Nat} (plain : Plain depth payload) (shallow : depth < maxNestingDepth) :
    unmarshal (sealEnvelope magic payload) =
      some ⟨magic, 1, payload.render, hexText (OctetDB.sha256 payload.render)⟩ := by
  have version : decodeInt (.num (decimal 1)) 0 = some 1 := by decide
  rw [unmarshal, sealEnvelope, parseDocument_render]
  · simp +decide [Envelope.set, Json.coerce, decodeString, version, Utf8.coerce_of_valid valid,
      Utf8.coerce_of_valid (valid_hexText _)]
  · simp only [List.mem_cons, List.not_mem_nil, or_false]
    rintro member (rfl | rfl | rfl | rfl)
    · exact .str _ _
    · exact .num _ _
    · exact plain.mono (by omega)
    · exact .str _ _

/-! ## Which identifiers survive -/

theorem valid_backendRecordKey {id : UInt64} (h : ∀ b ∈ putUint64BE id, b < 0x80) (key : Bytes) :
    Utf8.valid (backendRecordKey id key) = Utf8.valid key := by
  have ascii : ∀ b ∈ (0 : UInt8) :: putUint64BE id, b < 0x80 := by
    intro b hb
    rcases List.mem_cons.mp hb with rfl | hb
    · decide
    · exact h b hb
  exact Utf8.valid_ascii_append ascii key

/-- Reading back a written record, or the record map of a written snapshot, gives what was
written exactly when all identifiers in it are valid UTF-8. -/
theorem codec_roundTrip_iff (r : KeyedWALRecord) (s : KeyedSnapshot) :
    (KeyedWALRecord.unmarshal r.marshal = some r ↔ r.IdentifiersValid) ∧
    ((KeyedSnapshot.unmarshal s.marshal).map (·.records) = some s.records ↔
      ∀ key ∈ s.records, Utf8.valid key = true) := by
  constructor
  · rw [r.unmarshal_marshal, Option.some_inj, r.coerce_eq_iff]
  · rw [s.unmarshal_marshal, Option.map_some, Option.some_inj, coerceMap_eq_iff]

section Dataset128

def nullText : JsonText := ⟨ascii "null", 0, by decide⟩

def smallBounds : KeyedBounds where
  maxRecords := 4
  dedupeHorizon := 4
  maxValueBytes := 16
  maxTransactionBytes := 64
  records_pos := by decide
  horizon_pos := by decide
  value_pos := by decide
  value_le_transaction := by decide

/-- The 128th dataset of a database; the last byte of its identity is 0x80. -/
def dataset128 : Dataset where
  db := 0
  info := ⟨128, ascii "bucket", ascii "dataset", keyedJSON, goCatalog, [], ⟨4, 16⟩⟩

def database128 : Database where
  handle := 0
  keyed := { options := smallBounds, format := .catalog }
  catalog := {
    databaseID := ascii "0"
    nextDatasetID := 129
    buckets := .ofList [(ascii "bucket", .ofList [(ascii "dataset", dataset128.info)] compare)]
      compare }

def put128 : MutationFunc :=
  database128.mutation <|
    .put dataset128 (ascii "k") (.ok nullText) fun _ => .done (.returned (.ok nullText))

/-- A command whose ID is the byte 0x80, and a command that writes a record of dataset 128:
both are decided, and neither record is what its written form reads back as. Nor is the
record map after the second one. -/
theorem codec_replaces_bytes :
    (∃ record, executeKeyed database128.keyed [0x80] (some put128) = .decided record ∧
      KeyedWALRecord.unmarshal record.marshal ≠ some record) ∧
    ∃ record, executeKeyed database128.keyed (ascii "c") (some put128) = .decided record ∧
      KeyedWALRecord.unmarshal record.marshal ≠ some record ∧
      let db := applyKeyed database128.keyed record
      (KeyedSnapshot.unmarshal (KeyedSnapshot.marshal ⟨db.sequence, db.records, []⟩)).map
        (·.records) ≠ some db.records := by
  refine ⟨⟨_, rfl, ?_⟩, ⟨_, rfl, ?_, ?_⟩⟩
  · rw [KeyedWALRecord.unmarshal_marshal, ne_eq, Option.some_inj, KeyedWALRecord.coerce_eq_iff]
    decide +kernel
  · rw [KeyedWALRecord.unmarshal_marshal, ne_eq, Option.some_inj, KeyedWALRecord.coerce_eq_iff]
    decide +kernel
  · intro db
    rw [KeyedSnapshot.unmarshal_marshal, Option.map_some, ne_eq, Option.some_inj,
      coerceMap_eq_iff]
    intro valid
    have key := valid (backendRecordKey 128 (ascii "k")) (by decide +kernel)
    revert key
    decide +kernel

end Dataset128

end OctetDB
