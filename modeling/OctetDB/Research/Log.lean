import OctetDB.Research.Store
import OctetDB.Lib.Checksum

/-!
# Records of the log

A record is written as JSON, in a frame with its length before it and its CRC-32 behind it, both
most significant byte first. The text of a record has the result without what other fields have:
the reader fills in the sequence, the command ID and the effect. A record whose identifiers are
valid UTF-8 and whose result agrees with its other fields is read back as it is.
-/

namespace OctetDB.Research

open Accounts Json

def encodeInt (n : Int64) : Json :=
  .num (if n < 0 then 0x2D :: Json.decimal n.toInt.natAbs else Json.decimal n.toInt.natAbs)

def encodeUint (n : UInt64) : Json := .num (decimal n.toNat)

/-! ## The fields of a record -/

inductive LogField where
  | version
  | schemaID
  | programID
  | sequence
  | agentID
  | commandID
  | commandKind
  | accountA
  | accountB
  | amount
  | effectTag
  | newBalanceA
  | newBalanceB
  | newStatusTag
  | expectedA
  | expectedB
  | checkpoint
  | flowDelta
  | result
  deriving DecidableEq, Repr

namespace LogField

/-- The fields in the order in which they are written: the result, which the writer replaces,
comes last. -/
def all : List LogField :=
  [version, schemaID, programID, sequence, agentID, commandID, commandKind, accountA, accountB,
    amount, effectTag, newBalanceA, newBalanceB, newStatusTag, expectedA, expectedB, checkpoint,
    flowDelta, result]

def name : LogField → String
  | version => "version"
  | schemaID => "schema_id"
  | programID => "program_id"
  | sequence => "sequence"
  | agentID => "agent_id"
  | commandID => "command_id"
  | commandKind => "command_kind"
  | accountA => "account_a"
  | accountB => "account_b"
  | amount => "amount"
  | effectTag => "effect_tag"
  | newBalanceA => "new_balance_a"
  | newBalanceB => "new_balance_b"
  | newStatusTag => "new_status_tag"
  | expectedA => "expected_a"
  | expectedB => "expected_b"
  | checkpoint => "checkpoint"
  | flowDelta => "flow_delta"
  | result => "result"

/-- The field that a member name selects. -/
def ofName (key : Bytes) : Option LogField := all.find? fun f => named key f.name

theorem ofName_name (f : LogField) : ofName (Utf8.coerce (ascii f.name)) = some f := by
  cases f <;> decide +kernel

end LogField

/-- The part of a result that is written in a record. -/
def callerResult (r : Result) : Json :=
  .obj [(ascii "accepted", .bool r.accepted), (ascii "reason", encodeInt r.reasonTag),
    (ascii "turns", encodeInt r.transitionCount)]

def setCallerResult (r : Result) (field : Bytes × Json) : Option Result :=
  if named field.1 "accepted" then (decodeBool field.2 r.accepted).map ({ r with accepted := · })
  else if named field.1 "reason" then
    (decodeInt field.2 r.reasonTag).map ({ r with reasonTag := · })
  else if named field.1 "turns" then
    (decodeInt field.2 r.transitionCount).map ({ r with transitionCount := · })
  else some r

namespace LogRecord

/-- What is written of a field; empty identities and byte strings and the account zero as the
second account are left out. -/
def value (r : LogRecord) : LogField → Option Json
  | .version => some (encodeInt r.version)
  | .schemaID => if r.schemaID = [] then none else some (.str r.schemaID)
  | .programID => if r.programID = [] then none else some (.str r.programID)
  | .sequence => some (encodeUint r.sequence)
  | .agentID => some (encodeUint r.agentID)
  | .commandID => some (.str r.commandID)
  | .commandKind => some (encodeInt r.commandKind)
  | .accountA => some (encodeUint r.accountA)
  | .accountB => if r.accountB = 0 then none else some (encodeUint r.accountB)
  | .amount => some (encodeInt r.amount)
  | .effectTag => some (encodeInt r.effectTag)
  | .newBalanceA => some (encodeInt r.newBalanceA)
  | .newBalanceB => some (encodeInt r.newBalanceB)
  | .newStatusTag => some (encodeInt r.newStatusTag)
  | .expectedA => some (encodeUint r.expectedA)
  | .expectedB => some (encodeUint r.expectedB)
  | .checkpoint => if r.checkpoint = [] then none else some (encodeBytes r.checkpoint)
  | .flowDelta => if r.flowDelta = [] then none else some (encodeBytes r.flowDelta)
  | .result => some (callerResult r.result)

def toJson (r : LogRecord) : Json :=
  .obj (LogField.all.filterMap fun f => (r.value f).map (ascii f.name, ·))

def marshalJSON (r : LogRecord) : Bytes := r.toJson.render

/-- The record with a field read from a value. -/
def read (r : LogRecord) (j : Json) : LogField → Option LogRecord
  | .version => (decodeInt j r.version).map ({ r with version := · })
  | .schemaID => (decodeString j r.schemaID).map ({ r with schemaID := · })
  | .programID => (decodeString j r.programID).map ({ r with programID := · })
  | .sequence => (decodeUint j r.sequence).map ({ r with sequence := · })
  | .agentID => (decodeUint j r.agentID).map ({ r with agentID := · })
  | .commandID => (decodeString j r.commandID).map ({ r with commandID := · })
  | .commandKind => (decodeInt j r.commandKind).map ({ r with commandKind := · })
  | .accountA => (decodeUint j r.accountA).map ({ r with accountA := · })
  | .accountB => (decodeUint j r.accountB).map ({ r with accountB := · })
  | .amount => (decodeInt j r.amount).map ({ r with amount := · })
  | .effectTag => (decodeInt j r.effectTag).map ({ r with effectTag := · })
  | .newBalanceA => (decodeInt j r.newBalanceA).map ({ r with newBalanceA := · })
  | .newBalanceB => (decodeInt j r.newBalanceB).map ({ r with newBalanceB := · })
  | .newStatusTag => (decodeInt j r.newStatusTag).map ({ r with newStatusTag := · })
  | .expectedA => (decodeUint j r.expectedA).map ({ r with expectedA := · })
  | .expectedB => (decodeUint j r.expectedB).map ({ r with expectedB := · })
  | .checkpoint => (decodeBytes j).map ({ r with checkpoint := · })
  | .flowDelta => (decodeBytes j).map ({ r with flowDelta := · })
  | .result => (decodeStruct setCallerResult r.result j).map ({ r with result := · })

def set (r : LogRecord) (field : Bytes × Json) : Option LogRecord :=
  match LogField.ofName field.1 with
  | some f => r.read field.2 f
  | none => some r

/-- The result that belongs to the other fields. -/
def fullResult (r : LogRecord) : Result where
  sequence := r.sequence
  commandID := r.commandID
  accepted := r.result.accepted
  reasonTag := r.result.reasonTag
  effectTag := r.effectTag
  transitionCount := r.result.transitionCount

def unmarshalJSON (text : Bytes) : Option LogRecord := do
  let j ← parse text
  let wire ← decodeStruct set {} j
  some { wire with result := wire.fullResult }

/-! ## Reading back a record -/

/-- The record with a field of another one. -/
def copy (r source : LogRecord) : LogField → LogRecord
  | .version => { r with version := source.version }
  | .schemaID => { r with schemaID := source.schemaID }
  | .programID => { r with programID := source.programID }
  | .sequence => { r with sequence := source.sequence }
  | .agentID => { r with agentID := source.agentID }
  | .commandID => { r with commandID := source.commandID }
  | .commandKind => { r with commandKind := source.commandKind }
  | .accountA => { r with accountA := source.accountA }
  | .accountB => { r with accountB := source.accountB }
  | .amount => { r with amount := source.amount }
  | .effectTag => { r with effectTag := source.effectTag }
  | .newBalanceA => { r with newBalanceA := source.newBalanceA }
  | .newBalanceB => { r with newBalanceB := source.newBalanceB }
  | .newStatusTag => { r with newStatusTag := source.newStatusTag }
  | .expectedA => { r with expectedA := source.expectedA }
  | .expectedB => { r with expectedB := source.expectedB }
  | .checkpoint => { r with checkpoint := source.checkpoint }
  | .flowDelta => { r with flowDelta := source.flowDelta }
  | .result =>
    { r with
      result :=
        { r.result with
          accepted := source.result.accepted
          reasonTag := source.result.reasonTag
          transitionCount := source.result.transitionCount } }

/-- The identifiers of the record are valid UTF-8 and its result belongs to its other fields. -/
structure Readable (r : LogRecord) : Prop where
  schemaID : Utf8.valid r.schemaID = true
  programID : Utf8.valid r.programID = true
  commandID : Utf8.valid r.commandID = true
  result : r.result = r.fullResult

end LogRecord

/-! ### Values -/

theorem decodeInt_encodeInt (n old : Int64) : decodeInt (coerce (encodeInt n)) old = some n := by
  have low := n.le_toInt
  have high := n.toInt_lt
  have word (k : Nat) (small : k ≤ 2 ^ 63) : parseUint (decimal k) = some (UInt64.ofNat k) := by
    have parsed := parseUint_decimal (UInt64.ofNat k)
    rwa [UInt64.toNat_ofNat_of_lt' (by simp [UInt64.size]; omega)] at parsed
  rw [encodeInt, coerce]
  split
  · rename_i negative
    have below : n.toInt < 0 := by simpa [Int64.lt_iff_toInt_lt] using negative
    have size : n.toInt.natAbs ≤ 2 ^ 63 := by omega
    have bound : UInt64.ofNat n.toInt.natAbs ≤ 0x8000000000000000 := by
      rw [UInt64.le_iff_toNat_le, UInt64.toNat_ofNat_of_lt' (by simp [UInt64.size]; omega)]
      exact size
    have value : -((UInt64.ofNat n.toInt.natAbs).toNat : Int) = n.toInt := by
      rw [UInt64.toNat_ofNat_of_lt' (by simp [UInt64.size]; omega)]
      omega
    simp only [decodeInt, word _ size, Option.bind_eq_bind, Option.bind_some, bound, if_true,
      value, Int64.ofInt_toInt]
  · rename_i positive
    have above : 0 ≤ n.toInt := by simpa [Int64.lt_iff_toInt_lt] using positive
    have size : n.toInt.natAbs < 2 ^ 63 := by omega
    have bound : UInt64.ofNat n.toInt.natAbs < 0x8000000000000000 := by
      rw [UInt64.lt_iff_toNat_lt, UInt64.toNat_ofNat_of_lt' (by simp [UInt64.size]; omega)]
      exact size
    have value : (UInt64.ofNat n.toInt.natAbs).toInt64 = n := by
      apply Int64.toInt_inj.mp
      rw [UInt64.toInt64_ofNat', Int64.toInt_ofNat_of_lt size]
      omega
    unfold decodeInt
    split
    · cases ‹_›
    · rename_i digits eq
      exact absurd (Json.num.inj eq) (decimal_ne_minus _ digits)
    · rename_i literal _ eq
      obtain rfl := Json.num.inj eq
      simp [word _ size.le, bound, value]
    · rename_i other
      exact absurd rfl (other _)

theorem decodeUint_encodeUint (n old : UInt64) :
    decodeUint (coerce (encodeUint n)) old = some n := by
  simp [encodeUint, coerce, decodeUint]

theorem plain_encodeInt (depth : Nat) (n : Int64) : Plain depth (encodeInt n) := by
  unfold encodeInt
  split
  · exact .minus depth _
  · exact .num depth _

theorem decodeStruct_callerResult (r old : Result) :
    decodeStruct setCallerResult old (coerce (callerResult r)) =
      some { old with
        accepted := r.accepted, reasonTag := r.reasonTag,
        transitionCount := r.transitionCount } := by
  simp +decide [callerResult, coerce, decodeStruct, setCallerResult, decodeBool,
    decodeInt_encodeInt]

namespace LogRecord

variable {r acc : LogRecord}

theorem read_value (readable : r.Readable) {f : LogField} {j : Json}
    (written : r.value f = some j) :
    acc.read (coerce j) f = some (acc.copy r f) := by
  have schema := Utf8.coerce_of_valid readable.schemaID
  have program := Utf8.coerce_of_valid readable.programID
  have command := Utf8.coerce_of_valid readable.commandID
  cases f <;> simp only [value, Option.ite_none_left_eq_some, Option.some.injEq] at written <;>
    first
    | obtain rfl := written
      simp [read, copy, decodeInt_encodeInt, decodeUint_encodeUint, decodeStruct_callerResult,
        coerce, decodeString, command]
    | obtain ⟨-, rfl⟩ := written
      simp [read, copy, decodeUint_encodeUint, coerce, decodeString, schema, program]

theorem copy_omitted {f : LogField} (omitted : r.value f = none) :
    acc.copy r f = acc.copy {} f := by
  cases f <;> simp_all [value, copy]

theorem copy_comm (r s : LogRecord) {f g : LogField} (different : f ≠ g) :
    (acc.copy r f).copy s g = (acc.copy s g).copy r f := by
  cases f <;> cases g <;> first | rfl | exact absurd rfl different

theorem foldl_copy (r : LogRecord) :
    LogField.all.foldl (fun acc f => acc.copy r f) ({} : LogRecord) =
    { r with result :=
      { accepted := r.result.accepted
        reasonTag := r.result.reasonTag
        transitionCount := r.result.transitionCount } } := by
  simp only [LogField.all, List.foldl_cons, List.foldl_nil, copy]

/-- The written fields are read one after the other, onto a record in which those that are left
out are empty. -/
theorem foldlM_set (readable : r.Readable) {fields : List LogField} (distinct : fields.Nodup)
    (empty : ∀ f ∈ fields, acc.copy {} f = acc) :
    ((fields.filterMap fun f => (r.value f).map (ascii f.name, ·)).map fun m =>
        (Utf8.coerce m.1, coerce m.2)).foldlM set acc =
      some (fields.foldl (fun acc f => acc.copy r f) acc) := by
  induction fields generalizing acc with
  | nil => rfl
  | cons f fields ih =>
    obtain ⟨new, later⟩ := List.nodup_cons.mp distinct
    have next := @ih (acc.copy r f) later fun g mem => by
      have different : f ≠ g := fun same => new (same ▸ mem)
      rw [copy_comm r {} different, empty g (List.mem_cons_of_mem _ mem)]
    cases written : r.value f with
    | none =>
      have same : acc.copy r f = acc := by
        rw [copy_omitted written, empty f List.mem_cons_self]
      rw [same] at next
      simpa [written, same] using next
    | some j =>
      have field : acc.set (Utf8.coerce (ascii f.name), coerce j) = some (acc.copy r f) := by
        rw [set, LogField.ofName_name]
        exact read_value readable written
      simpa [written, field] using next

theorem plain_toJson (r : LogRecord) : Plain 2 r.toJson := by
  refine .obj fun member mem => ?_
  obtain ⟨f, -, eq⟩ := List.mem_filterMap.mp mem
  obtain ⟨j, written, rfl⟩ := Option.map_eq_some_iff.mp eq
  have result : Plain 1 (callerResult r.result) := by
    refine .obj ?_
    simp only [List.mem_cons, List.not_mem_nil, or_false]
    rintro member (rfl | rfl | rfl)
    · exact .bool 0 _
    · exact plain_encodeInt 0 _
    · exact plain_encodeInt 0 _
  have strings (s : Bytes) : Plain 1 (.str s) := .str 1 s
  have words (n : UInt64) : Plain 1 (encodeUint n) := .num 1 _
  cases f <;> simp only [value, Option.ite_none_left_eq_some, Option.some.injEq] at written <;>
    first
    | obtain rfl := written
      first | exact plain_encodeInt 1 _ | exact words _ | exact strings _ | exact result
    | obtain ⟨-, rfl⟩ := written
      first | exact strings _ | exact words _ | exact plain_encodeBytes 1 _

theorem Readable.unmarshalJSON_marshalJSON (readable : r.Readable) :
    unmarshalJSON r.marshalJSON = some r := by
  have plain := r.plain_toJson.mono (show 2 ≤ maxNestingDepth by decide)
  have fields := @foldlM_set r {} readable LogField.all (by decide) fun f _ => by cases f <;> rfl
  have full := readable.result
  rw [unmarshalJSON, marshalJSON, parse_render plain, Option.bind_eq_bind, Option.bind_some, toJson,
    coerce, coerceMembers_eq, decodeStruct, fields, foldl_copy]
  simp only [Option.bind_eq_bind, Option.bind_some, fullResult] at full ⊢
  rw [← full]

/-! ## Frames -/

def maxRecordBytes : Nat := 1 <<< 20

/-- The frame of a record, whatever its size. -/
def framed (r : LogRecord) : Bytes :=
  putUint32BE (UInt32.ofNat r.marshalJSON.length) ++
    (r.marshalJSON ++ putUint32BE (checksumIEEE r.marshalJSON))

def frame (r : LogRecord) : Except String Bytes :=
  let size := r.marshalJSON.length
  if size > maxRecordBytes then .error s!"record is {size} bytes" else .ok r.framed

@[simp] theorem length_framed (r : LogRecord) : r.framed.length = r.marshalJSON.length + 8 := by
  simp [framed]
  omega

theorem marshalJSON_pos (r : LogRecord) : 0 < r.marshalJSON.length := render_pos r.plain_toJson

theorem render_callerResult (r : Result) : render (callerResult r) =
    0x7B :: (quote (ascii "accepted") ++ 0x3A :: (render (.bool r.accepted) ++ 0x2C ::
      (quote (ascii "reason") ++ 0x3A :: (render (encodeInt r.reasonTag) ++ 0x2C ::
        (quote (ascii "turns") ++ 0x3A :: render (encodeInt r.transitionCount))))) ++ [0x7D]) := by
  rw [callerResult, render, renderMembers, renderMembers, renderMembers]

/-- The result is the last member of the text of a record. It has small letters, digits and
punctuation only. -/
theorem marshalJSON_end (r : LogRecord) : ∃ before result, r.marshalJSON = before ++ result ∧
    20 ≤ result.length ∧ 0x4F ∉ result := by
  obtain ⟨before, eq⟩ := renderMembers_concat (LogField.all.dropLast.filterMap fun f =>
    (r.value f).map (ascii f.name, ·)) (ascii "result") (callerResult r.result)
  refine ⟨0x7B :: before,
    quote (ascii "result") ++ 0x3A :: render (callerResult r.result) ++ [0x7D],
    ?_, ?_, ?_⟩
  · have last : [LogField.result].filterMap (fun f => (r.value f).map (ascii f.name, ·)) =
      [(ascii "result", callerResult r.result)] := rfl
    have split : LogField.all = LogField.all.dropLast ++ [.result] := rfl
    rw [marshalJSON, toJson, split, List.filterMap_append, last, render, eq]
    simp only [List.cons_append, List.append_assoc]
  · have name : (quote (ascii "result")).length = 8 := by decide
    have first : (quote (ascii "accepted")).length = 10 := by decide
    simp only [render_callerResult, List.length_append, List.length_cons, name, first]
    omega
  · have number (n : Int64) : 0x4F ∉ render (encodeInt n) := by
      have digits (k : Nat) : 0x4F ∉ decimal k := by
        intro mem
        exact absurd ((digitsUpTo_spec (Nat.lt_succ_self k)).1 _ mem) (by decide)
      rw [encodeInt, render]
      split
      · exact List.not_mem_cons_of_ne_of_not_mem (by decide) (digits _)
      · exact digits _
    have truth (v : Bool) : 0x4F ∉ render (.bool v) := by
      cases v <;> decide +kernel
    have name : 0x4F ∉ quote (ascii "result") := by decide +kernel
    have accepted : 0x4F ∉ quote (ascii "accepted") := by decide +kernel
    have reason : 0x4F ∉ quote (ascii "reason") := by decide +kernel
    have turns : 0x4F ∉ quote (ascii "turns") := by decide +kernel
    simp only [render_callerResult, List.mem_append, List.mem_cons,
      List.not_mem_nil, name, accepted,
      reason, turns, truth, number]
    decide

end LogRecord

end OctetDB.Research
