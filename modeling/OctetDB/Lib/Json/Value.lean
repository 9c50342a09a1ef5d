import OctetDB.Lib.Json.Text

/-!
# JSON values: writing, reading and the round trip

`render` writes a value compactly. `parse` reads a text with optional white space and
refuses values nested deeper than `maxNestingDepth`. Reading the text of a value whose
numbers are whole-number literals yields the value with every string coerced to valid
UTF-8.

The reader keeps the source text of every object member beside its value, for members
that are to be taken as raw text.
-/

namespace OctetDB

inductive Json where
  | null
  | bool (b : Bool)
  | num (literal : Bytes)
  | str (s : Bytes)
  | arr (items : List Json)
  | obj (members : List (Bytes × Json))
  deriving Repr

namespace Json

/-! ## Writing -/

mutual

def render : Json → Bytes
  | null => ascii "null"
  | bool true => ascii "true"
  | bool false => ascii "false"
  | num literal => literal
  | str s => quote s
  | arr items => 0x5B :: (renderItems items ++ [0x5D])
  | obj members => 0x7B :: (renderMembers members ++ [0x7D])

def renderItems : List Json → Bytes
  | [] => []
  | [j] => render j
  | j :: k :: rest => render j ++ 0x2C :: renderItems (k :: rest)

def renderMembers : List (Bytes × Json) → Bytes
  | [] => []
  | [(name, j)] => quote name ++ 0x3A :: render j
  | (name, j) :: m :: rest =>
    quote name ++ 0x3A :: (render j ++ 0x2C :: renderMembers (m :: rest))

end

/-- The last member of an object is written last. -/
theorem renderMembers_concat (members : List (Bytes × Json)) (name : Bytes) (j : Json) :
    ∃ before, renderMembers (members ++ [(name, j)]) =
      before ++ (quote name ++ 0x3A :: render j) := by
  induction members with
  | nil => exact ⟨[], by simp [renderMembers]⟩
  | cons m members ih =>
    obtain ⟨before, eq⟩ := ih
    obtain ⟨first, k⟩ := m
    refine ⟨quote first ++ 0x3A :: (render k ++ 0x2C :: before), ?_⟩
    cases members with
    | nil => simpa [renderMembers] using eq
    | cons n members => simpa [renderMembers] using eq

/-! ## Reading -/

def isSpace (b : UInt8) : Bool := b == 0x20 || b == 0x09 || b == 0x0A || b == 0x0D

/-- The text behind leading white space. -/
def skip (s : Bytes) : Bytes := s.dropWhile isSpace

/-- An object member, with the text its value was read from. -/
structure Member where
  name : Bytes
  value : Json
  raw : Bytes

def keyword (word : Bytes) (j : Json) (s : Bytes) : Option (Json × Bytes) :=
  if word.isPrefixOf s then some (j, s.drop word.length) else none

def parseScalar : Bytes → Option (Json × Bytes)
  | [] => none
  | b :: s =>
    if b = 0x22 then (unquote (s.length + 1) s).map fun r => (str r.1, r.2)
    else if b = 0x74 then keyword (ascii "true") (bool true) (b :: s)
    else if b = 0x66 then keyword (ascii "false") (bool false) (b :: s)
    else if b = 0x6E then keyword (ascii "null") null (b :: s)
    else (numberToken (b :: s)).map fun r => (num r.1, r.2)

/-- The items of a non-empty array, up to its closing bracket. -/
def parseItems (value : Bytes → Option (Json × Bytes)) :
    Nat → Bytes → Option (List Json × Bytes)
  | 0, _ => none
  | fuel + 1, s => do
    let (j, s) ← value (skip s)
    match skip s with
    | [] => none
    | b :: s =>
      if b = 0x2C then
        let (items, s) ← parseItems value fuel s
        some (j :: items, s)
      else if b = 0x5D then some ([j], s)
      else none

/-- A member name and the colon behind it. -/
def parseName (s : Bytes) : Option (Bytes × Bytes) :=
  match skip s with
  | [] => none
  | b :: s =>
    if b = 0x22 then do
      let (name, s) ← unquote (s.length + 1) s
      match skip s with
      | [] => none
      | b :: s => if b = 0x3A then some (name, skip s) else none
    else none

/-- The members of a non-empty object, up to its closing brace. -/
def parseMembers (value : Bytes → Option (Json × Bytes)) :
    Nat → Bytes → Option (List Member × Bytes)
  | 0, _ => none
  | fuel + 1, s => do
    let (name, s) ← parseName s
    let (j, rest) ← value s
    let member : Member := ⟨name, j, s.take (s.length - rest.length)⟩
    match skip rest with
    | [] => none
    | b :: rest =>
      if b = 0x2C then
        let (members, rest) ← parseMembers value fuel rest
        some (member :: members, rest)
      else if b = 0x7D then some ([member], rest)
      else none

def parseArray (value : Bytes → Option (Json × Bytes)) (s : Bytes) :
    Option (List Json × Bytes) :=
  if (skip s).head? = some 0x5D then some ([], (skip s).tail)
  else parseItems value s.length s

def parseObject (value : Bytes → Option (Json × Bytes)) (s : Bytes) :
    Option (List Member × Bytes) :=
  if (skip s).head? = some 0x7D then some ([], (skip s).tail)
  else parseMembers value s.length s

/-- A value nested at most `depth` deep at the front of a text. -/
def parseValue : Nat → Bytes → Option (Json × Bytes)
  | 0, s => parseScalar s
  | depth + 1, s =>
    match s with
    | [] => none
    | b :: rest =>
      if b = 0x5B then (parseArray (parseValue depth) rest).map fun r => (arr r.1, r.2)
      else if b = 0x7B then
        (parseObject (parseValue depth) rest).map fun r =>
          (obj (r.1.map fun m => (m.name, m.value)), r.2)
      else parseScalar (b :: rest)

def maxNestingDepth : Nat := 10000

/-- A whole text as a value nested at most `depth` deep. -/
def parseWithin (depth : Nat) (text : Bytes) : Option Json :=
  match parseValue depth (skip text) with
  | some (j, rest) => if skip rest = [] then some j else none
  | none => none

def parse (text : Bytes) : Option Json := parseWithin maxNestingDepth text

/-- The text is a JSON value the reader accepts. -/
def valid (text : Bytes) : Bool := (parse text).isSome

/-- The text is a JSON value of some nesting depth. -/
def WellFormed (text : Bytes) : Prop := ∃ depth, (parseWithin depth text).isSome

/-- The members of a whole text that is an object, with their source texts. -/
def parseDocument (text : Bytes) : Option (List Member) :=
  match skip text with
  | [] => none
  | b :: s =>
    if b = 0x7B then
      match parseObject (parseValue (maxNestingDepth - 1)) s with
      | some (members, rest) => if skip rest = [] then some members else none
      | none => none
    else none

/-! ## Strings coerced to valid UTF-8 -/

mutual

def coerce : Json → Json
  | null => null
  | bool b => bool b
  | num literal => num literal
  | str s => str (Utf8.coerce s)
  | arr items => arr (coerceItems items)
  | obj members => obj (coerceMembers members)

def coerceItems : List Json → List Json
  | [] => []
  | j :: rest => coerce j :: coerceItems rest

def coerceMembers : List (Bytes × Json) → List (Bytes × Json)
  | [] => []
  | (name, j) :: rest => (Utf8.coerce name, coerce j) :: coerceMembers rest

end

@[simp] theorem coerceItems_eq (items : List Json) : coerceItems items = items.map coerce := by
  induction items with
  | nil => rfl
  | cons j rest ih => simp [coerceItems, ih]

@[simp] theorem coerceMembers_eq (members : List (Bytes × Json)) :
    coerceMembers members = members.map fun m => (Utf8.coerce m.1, coerce m.2) := by
  induction members with
  | nil => rfl
  | cons m rest ih => obtain ⟨name, j⟩ := m; simp [coerceMembers, ih]

/-- A value nested at most `depth` deep whose numbers are whole-number literals. -/
inductive Plain : Nat → Json → Prop where
  | null (depth : Nat) : Plain depth null
  | bool (depth : Nat) (b : Bool) : Plain depth (bool b)
  | num (depth n : Nat) : Plain depth (num (decimal n))
  | minus (depth n : Nat) : Plain depth (num (0x2D :: decimal n))
  | str (depth : Nat) (s : Bytes) : Plain depth (str s)
  | arr {depth : Nat} {items : List Json} :
      (∀ j ∈ items, Plain depth j) → Plain (depth + 1) (arr items)
  | obj {depth : Nat} {members : List (Bytes × Json)} :
      (∀ m ∈ members, Plain depth m.2) → Plain (depth + 1) (obj members)

variable {j : Json} {b : UInt8} {depth : Nat} {value : Bytes → Option (Json × Bytes)}
  {items : List Json} {members : List (Bytes × Json)}

theorem Plain.mono {d e : Nat} (h : Plain d j) (le : d ≤ e) : Plain e j := by
  induction h generalizing e with
  | null => exact .null e
  | bool _ b => exact .bool e b
  | num _ n => exact .num e n
  | minus _ n => exact .minus e n
  | str _ s => exact .str e s
  | arr _ ih =>
    obtain ⟨e, rfl⟩ : ∃ n, e = n + 1 := ⟨e - 1, by omega⟩
    exact .arr fun j hj => ih j hj (by omega)
  | obj _ ih =>
    obtain ⟨e, rfl⟩ : ∃ n, e = n + 1 := ⟨e - 1, by omega⟩
    exact .obj fun m hm => ih m hm (by omega)

/-! ## The round trip -/

theorem delimited_of (rest : Bytes)
    (h : isDigit b = false ∧ b ≠ 0x2E ∧ b ≠ 0x65 ∧ b ≠ 0x45 := by decide) :
    Delimited (b :: rest) := by
  intro c hc
  obtain rfl : b = c := by simpa using hc
  exact h

@[simp] theorem skip_nil : skip [] = [] := rfl

theorem skip_cons (rest : Bytes) (h : isSpace b = false) :
    skip (b :: rest) = b :: rest := by simp [skip, h]

/-- The text of a value starts with neither white space nor a closing bracket. -/
theorem render_head (h : Plain depth j) :
    ∃ b tail, render j = b :: tail ∧ isSpace b = false ∧ b ≠ 0x5D := by
  cases h with
  | null => exact ⟨_, _, rfl, by decide, by decide⟩
  | bool _ b => cases b <;> exact ⟨_, _, rfl, by decide, by decide⟩
  | num _ n =>
    obtain ⟨b, tail, hd, hb⟩ := decimal_cons n
    refine ⟨b, tail, hd, ?_, ?_⟩
    · by_contra space
      simp only [isSpace, Bool.not_eq_false, Bool.or_eq_true, beq_iff_eq] at space
      rcases space with ((rfl | rfl) | rfl) | rfl <;> revert hb <;> decide
    · rintro rfl; revert hb; decide
  | minus _ | str _ | arr _ | obj _ => exact ⟨_, _, rfl, by decide, by decide⟩

theorem skip_render (h : Plain depth j) (rest : Bytes) :
    skip (render j ++ rest) = render j ++ rest := by
  obtain ⟨b, tail, eq, space, -⟩ := render_head h
  rw [eq, List.cons_append, skip_cons _ space]

theorem render_pos (h : Plain depth j) : 0 < (render j).length := by
  obtain ⟨b, tail, eq, -, -⟩ := render_head h
  simp [eq]

theorem unquote_quote (s rest : Bytes) :
    unquote ((escape s ++ 0x22 :: rest).length + 1) (escape s ++ 0x22 :: rest) =
      some (Utf8.coerce s, rest) :=
  unquote_escape s rest (by simp)

theorem parseScalar_str (s rest : Bytes) :
    parseScalar (render (str s) ++ rest) = some (coerce (str s), rest) := by
  have h := unquote_quote s rest
  simp only [render, quote, List.cons_append, List.append_assoc, List.nil_append, parseScalar,
    if_true, h]
  rfl

theorem parseScalar_num (n : Nat) {rest : Bytes} (stop : Delimited rest) :
    parseScalar (render (num (decimal n)) ++ rest) = some (num (decimal n), rest) := by
  obtain ⟨b, tail, hd, hb⟩ := decimal_cons n
  have token := numberToken_decimal n stop
  have notQuote : b ≠ 0x22 := by rintro rfl; revert hb; decide
  have notTrue : b ≠ 0x74 := by rintro rfl; revert hb; decide
  have notFalse : b ≠ 0x66 := by rintro rfl; revert hb; decide
  have notNull : b ≠ 0x6E := by rintro rfl; revert hb; decide
  rw [hd, List.cons_append] at token
  simp [hd, render, parseScalar, notQuote, notTrue, notFalse, notNull, token]

theorem parseScalar_minus (n : Nat) {rest : Bytes} (stop : Delimited rest) :
    parseScalar (render (num (0x2D :: decimal n)) ++ rest) =
      some (num (0x2D :: decimal n), rest) := by
  have token := numberToken_minus n stop
  rw [List.cons_append] at token
  simp [render, parseScalar, token]

/-- A reader of values that reads back the text of `j`. -/
def Reads (value : Bytes → Option (Json × Bytes)) (j : Json) : Prop :=
  ∀ rest, Delimited rest → value (render j ++ rest) = some (coerce j, rest)

theorem parseItems_render (nonempty : items ≠ []) (plain : ∀ j ∈ items, Plain depth j)
    (reads : ∀ j ∈ items, Reads value j) (rest : Bytes) {fuel : Nat}
    (enough : items.length ≤ fuel) :
    parseItems value fuel (renderItems items ++ 0x5D :: rest) = some (items.map coerce, rest) := by
  induction items generalizing fuel with
  | nil => exact absurd rfl nonempty
  | cons j items ih =>
    obtain ⟨fuel, rfl⟩ : ∃ n, fuel = n + 1 := ⟨fuel - 1, by simp at enough; omega⟩
    have first := reads j (by simp)
    cases items with
    | nil =>
      have read := first (0x5D :: rest) (delimited_of rest)
      simp (disch := decide) [parseItems, renderItems, skip_render (plain j (by simp)), read,
        skip_cons]
    | cons k items =>
      have read := first (0x2C :: (renderItems (k :: items) ++ 0x5D :: rest)) (delimited_of _)
      have tail := @ih (by simp) (fun i hi => plain i (by simp [hi]))
        (fun i hi => reads i (by simp [hi])) fuel (by simp at enough ⊢; omega)
      simp (disch := decide) only [renderItems, List.append_assoc, List.cons_append, parseItems,
        skip_render (plain j (by simp)), read, Option.bind_eq_bind, Option.bind_some,
        skip_cons, if_true, tail]
      simp

theorem parseName_render (name rest : Bytes) (space : isSpace b = false) :
    parseName (quote name ++ 0x3A :: b :: rest) = some (Utf8.coerce name, b :: rest) := by
  have h := unquote_quote name (0x3A :: b :: rest)
  simp (disch := decide) only [parseName, quote, List.cons_append, List.append_assoc,
    List.nil_append, skip_cons, if_true, h, Option.bind_eq_bind, Option.bind_some]
  rw [skip_cons _ space]

theorem parseMembers_render (nonempty : members ≠ []) (plain : ∀ m ∈ members, Plain depth m.2)
    (reads : ∀ m ∈ members, Reads value m.2) (rest : Bytes) {fuel : Nat}
    (enough : members.length ≤ fuel) :
    parseMembers value fuel (renderMembers members ++ 0x7D :: rest) =
      some (members.map fun m => ⟨Utf8.coerce m.1, coerce m.2, render m.2⟩, rest) := by
  induction members generalizing fuel with
  | nil => exact absurd rfl nonempty
  | cons m members ih =>
    obtain ⟨name, j⟩ := m
    obtain ⟨fuel, rfl⟩ : ∃ n, fuel = n + 1 := ⟨fuel - 1, by simp at enough; omega⟩
    have first := reads (name, j) (by simp)
    obtain ⟨b, tail, eq, space, -⟩ := render_head (plain (name, j) (by simp))
    -- The raw text of the member is what the value's reader consumed.
    have taken (t : Bytes) : (render j ++ t).take ((render j ++ t).length - t.length) =
        render j := by simp
    have named (t : Bytes) : parseName (quote name ++ 0x3A :: (render j ++ t)) =
        some (Utf8.coerce name, render j ++ t) := by
      rw [eq, List.cons_append]; exact parseName_render name _ space
    cases members with
    | nil =>
      have read := first (0x7D :: rest) (delimited_of rest)
      simp (disch := decide) only [renderMembers, List.append_assoc, List.cons_append,
        parseMembers, named, read, Option.bind_eq_bind, Option.bind_some, taken, skip_cons]
      simp
    | cons k members =>
      have read := first (0x2C :: (renderMembers (k :: members) ++ 0x7D :: rest)) (delimited_of _)
      have later := @ih (by simp) (fun i hi => plain i (by simp [hi]))
        (fun i hi => reads i (by simp [hi])) fuel (by simp at enough ⊢; omega)
      simp (disch := decide) only [renderMembers, List.append_assoc, List.cons_append,
        parseMembers, named, read, Option.bind_eq_bind, Option.bind_some, taken, skip_cons,
        if_true, later]
      simp

theorem length_renderItems (plain : ∀ j ∈ items, Plain depth j) :
    items.length ≤ (renderItems items).length := by
  induction items with
  | nil => simp
  | cons j items ih =>
    have first := render_pos (plain j (by simp))
    have later := ih fun i hi => plain i (by simp [hi])
    cases items with
    | nil => simp only [renderItems, List.length_singleton]; omega
    | cons k items => simp [renderItems] at later ⊢; omega

theorem length_renderMembers (members : List (Bytes × Json)) :
    members.length ≤ (renderMembers members).length := by
  induction members with
  | nil => simp
  | cons m members ih =>
    obtain ⟨name, j⟩ := m
    cases members with
    | nil => simp [renderMembers, quote]
    | cons k members => simp [renderMembers, quote] at ih ⊢; omega

theorem length_le_renderMembers {m : Bytes × Json} (mem : m ∈ members) :
    (render m.2).length ≤ (renderMembers members).length := by
  induction members with
  | nil => cases mem
  | cons first members ih =>
    obtain ⟨name, j⟩ := first
    cases members with
    | nil =>
      obtain rfl := List.mem_singleton.mp mem
      simp only [renderMembers, List.length_append, List.length_cons]
      omega
    | cons k members =>
      simp only [renderMembers, List.length_append, List.length_cons]
      rcases List.mem_cons.mp mem with rfl | mem
      · simp only
        omega
      · have := ih mem
        omega

theorem parseArray_render (plain : ∀ j ∈ items, Plain depth j) (reads : ∀ j ∈ items, Reads value j)
    (rest : Bytes) :
    parseArray value (renderItems items ++ 0x5D :: rest) = some (items.map coerce, rest) := by
  cases items with
  | nil => simp (disch := decide) [parseArray, renderItems, skip_cons]
  | cons j items =>
    have fuel := length_renderItems plain
    have opened : (skip (renderItems (j :: items) ++ 0x5D :: rest)).head? ≠ some 0x5D := by
      obtain ⟨b, tail, eq, space, bracket⟩ := render_head (plain j (by simp))
      cases items <;> simp [renderItems, eq, skip_cons _ space, bracket]
    rw [parseArray, if_neg opened]
    exact parseItems_render (by simp) plain reads rest
      (by simp only [List.length_append]; omega)

theorem parseObject_render (plain : ∀ m ∈ members, Plain depth m.2)
    (reads : ∀ m ∈ members, Reads value m.2) (rest : Bytes) :
    parseObject value (renderMembers members ++ 0x7D :: rest) =
      some (members.map fun m => ⟨Utf8.coerce m.1, coerce m.2, render m.2⟩, rest) := by
  cases members with
  | nil => simp (disch := decide) [parseObject, renderMembers, skip_cons]
  | cons m members =>
    have fuel := length_renderMembers (m :: members)
    have opened : (skip (renderMembers (m :: members) ++ 0x7D :: rest)).head? ≠ some 0x7D := by
      obtain ⟨name, j⟩ := m
      cases members <;> simp (disch := decide) [renderMembers, quote, skip_cons]
    rw [parseObject, if_neg opened]
    exact parseMembers_render (by simp) plain reads rest
      (by simp only [List.length_append]; omega)

/-- The text of a plain value is read back with its strings coerced. -/
theorem parseValue_render (plain : Plain depth j) :
    Reads (parseValue depth) j := by
  -- Scalars do not depend on the depth; containers take one level for their elements.
  have scalar (depth : Nat) {j : Json} {rest : Bytes} {b : UInt8} {tail : Bytes}
      (eq : render j = b :: tail) (array : b ≠ 0x5B) (object : b ≠ 0x7B)
      (read : parseScalar (render j ++ rest) = some (coerce j, rest)) :
      parseValue depth (render j ++ rest) = some (coerce j, rest) := by
    cases depth with
    | zero => exact read
    | succ depth => rw [eq, List.cons_append] at read ⊢; simp [parseValue, array, object, read]
  induction plain with
  | null depth =>
    intro rest _
    exact scalar depth (j := .null) rfl (by decide) (by decide)
      (by simp [render, parseScalar, keyword, ascii, coerce])
  | bool depth b =>
    intro rest _
    cases b
    · exact scalar depth (j := .bool false) rfl (by decide) (by decide)
        (by simp [render, parseScalar, keyword, ascii, coerce])
    · exact scalar depth (j := .bool true) rfl (by decide) (by decide)
        (by simp [render, parseScalar, keyword, ascii, coerce])
  | num depth n =>
    intro rest stop
    obtain ⟨b, tail, hd, hb⟩ := decimal_cons n
    exact scalar depth (j := .num (decimal n)) hd (by rintro rfl; revert hb; decide)
      (by rintro rfl; revert hb; decide) (parseScalar_num n stop)
  | minus depth n =>
    intro rest stop
    exact scalar depth (j := .num (0x2D :: decimal n)) rfl (by decide) (by decide)
      (parseScalar_minus n stop)
  | str depth s =>
    intro rest _
    exact scalar depth (j := .str s) rfl (by decide) (by decide) (parseScalar_str s rest)
  | @arr depth items plain ih =>
    intro rest _
    have read := parseArray_render plain ih rest
    simp [render, parseValue, read, coerce]
  | @obj depth members plain ih =>
    intro rest _
    have read := parseObject_render plain ih rest
    simp [render, parseValue, read, coerce]

theorem parse_render (plain : Plain maxNestingDepth j) :
    parse (render j) = some (coerce j) := by
  have read := parseValue_render plain [] (by simp [Delimited])
  have start := skip_render plain []
  rw [List.append_nil] at read start
  simp [parse, parseWithin, start, read]

theorem parseDocument_render (plain : ∀ m ∈ members, Plain (maxNestingDepth - 1) m.2) :
    parseDocument (render (obj members)) =
      some (members.map fun m => ⟨Utf8.coerce m.1, coerce m.2, render m.2⟩) := by
  have read := parseObject_render plain (fun m hm => parseValue_render (plain m hm)) []
  simp (disch := decide) [parseDocument, render, skip_cons, read]

end Json

end OctetDB
