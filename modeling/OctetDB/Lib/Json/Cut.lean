import OctetDB.Lib.Json.Value

/-!
# Texts that are cut and texts with more behind them

No proper prefix of the text of an object is a JSON value, and neither is the text with anything
but white space behind it.
-/

namespace OctetDB.Json

open Utf8 (Rune nextRune runes)

variable {p s rest : Bytes}

/-- A prefix of two texts ends inside the first or goes on into the second. -/
theorem prefix_append_cases {a b : Bytes} (h : p <+: a ++ b) :
    (p <+: a ∧ p ≠ a) ∨ ∃ q, p = a ++ q ∧ q <+: b := by
  rcases List.prefix_or_prefix_of_prefix h (List.prefix_append a b) with inside | ⟨q, rfl⟩
  · by_cases whole : p = a
    · exact .inr ⟨[], by simp [whole], List.nil_prefix⟩
    · exact .inl ⟨inside, whole⟩
  · exact .inr ⟨q, rfl, (List.prefix_append_right_inj a).mp h⟩

/-! ## Strings -/

/-- All bytes of an encoding beyond ASCII are beyond ASCII. -/
theorem high_of_runeLength (wide : 2 ≤ Utf8.runeLength s) :
    ∀ b ∈ s.take (Utf8.runeLength s), 0x80 ≤ b := by
  revert wide
  fun_cases Utf8.runeLength s <;> intro wide <;>
    simp_all [Utf8.two, Utf8.three, Utf8.four, Utf8.cont]

theorem high_of_valid {enc : Bytes} (h : nextRune s = some (.valid enc, rest))
    (wide : 2 ≤ enc.length) : ∀ b ∈ enc, 0x80 ≤ b := by
  cases s with
  | nil => simp [nextRune] at h
  | cons b s =>
    simp only [nextRune] at h
    split at h
    · simp at h
    · obtain ⟨rfl, -⟩ : (b :: s).take (Utf8.runeLength (b :: s)) = enc ∧ _ = rest := by
        simpa only [Option.some.injEq, Prod.mk.injEq, Rune.valid.injEq] using h
      rw [List.length_take] at wide
      exact high_of_runeLength (by omega)

/-- Bytes beyond ASCII close no string. -/
theorem unquote_high (high : ∀ b ∈ s, 0x80 ≤ b) (fuel : Nat) : unquote fuel s = none := by
  induction fuel generalizing s with
  | zero => rfl
  | succ fuel ih =>
    cases s with
    | nil => rfl
    | cons b s =>
      have first : 0x80 ≤ b := high b (by simp)
      cases next : nextRune (b :: s) with
      | none => simp [Utf8.nextRune] at next; split at next <;> cases next
      | some step =>
        obtain ⟨r, rest⟩ := step
        have behind := (Utf8.nextRune_eq_some next).1
        have later := ih (s := rest) fun c mem => high c (by rw [behind]; simp [mem])
        have quoted : b ≠ 0x22 := by rintro rfl; revert first; decide
        have escaped : b ≠ 0x5C := by rintro rfl; revert first; decide
        have control : ¬ b < 0x20 := by grind
        simp [unquote, stringStep, quoted, escaped, control, next, later]

/-- An escape cut short is no character. -/
theorem unquote_take_escape (a b c d : UInt8) {k : Nat} (short : k < 6) (fuel : Nat) :
    unquote fuel ([0x5C, 0x75, a, b, c, d].take k) = none := by
  cases fuel with
  | zero => rfl
  | succ fuel => interval_cases k <;> simp [unquote, stringStep, unescape]

/-- The start of a written character is no character. -/
theorem unquote_take_rune {r : Rune} (step : nextRune s = some (r, rest)) {k : Nat}
    (short : k < (escapeRune r).length) (fuel : Nat) :
    unquote fuel ((escapeRune r).take k) = none := by
  have pair (c : UInt8) {k : Nat} (short : k < 2) : unquote fuel ([0x5C, c].take k) = none := by
    cases fuel with
    | zero => rfl
    | succ fuel => interval_cases k <;> simp [unquote, stringStep, unescape]
  have single (c : UInt8) {k : Nat} (short : k < 1) : unquote fuel ([c].take k) = none := by
    cases fuel with
    | zero => rfl
    | succ fuel => interval_cases k; simp [unquote, stringStep]
  cases r with
  | invalid b => exact unquote_take_escape _ _ _ _ short fuel
  | valid enc =>
    obtain ⟨b, rfl, low⟩ | ⟨b, c, tail, rfl, high⟩ := valid_rune_cases step
    · simp only [escapeRune, escapeAscii] at short ⊢
      split_ifs at short ⊢ <;>
        first
          | exact unquote_take_escape _ _ _ _ short fuel
          | exact pair _ short
          | exact single _ short
    · have all : ∀ x ∈ b :: c :: tail, 0x80 ≤ x := high_of_valid step (by simp)
      simp only [escapeRune] at short ⊢
      split_ifs at short ⊢
      · exact unquote_take_escape _ _ _ _ short fuel
      · exact unquote_take_escape _ _ _ _ short fuel
      · exact unquote_high (fun x mem => all x (List.mem_of_mem_take mem)) fuel

theorem unquote_cut (s : Bytes) (cut : p <+: escape s ++ [0x22]) (short : p ≠ escape s ++ [0x22])
    (fuel : Nat) : unquote fuel p = none := by
  induction s using Utf8.runeInduction generalizing p fuel with
  | nil =>
    obtain rfl : p = [] := by
      rcases List.prefix_cons_iff.mp cut with rfl | ⟨t, rfl, rest⟩
      · rfl
      · simp [List.prefix_nil.mp rest, escape] at short
    cases fuel <;> rfl
  | cons s r tail step ih =>
    rw [escape_of_nextRune step, List.append_assoc] at cut short
    obtain ⟨inside, part⟩ | ⟨q, rfl, rest⟩ := prefix_append_cases cut
    · have less : p.length < (escapeRune r).length :=
        lt_of_le_of_ne inside.length_le fun same => part (inside.eq_of_length same)
      rw [List.prefix_iff_eq_take.mp inside]
      exact unquote_take_rune step less fuel
    · cases fuel with
      | zero => rfl
      | succ fuel =>
        have later := ih rest (fun whole => short (by rw [whole])) fuel
        simp [unquote, stringStep_escapeRune step, later]

/-! ## Numbers -/

theorem digitsUpTo_eq_decimal {fuel n : Nat} (enough : n < fuel) :
    digitsUpTo fuel n = decimal n := by
  induction n using Nat.strong_induction_on generalizing fuel with
  | _ n ih =>
    obtain ⟨fuel, rfl⟩ : ∃ m, fuel = m + 1 := ⟨fuel - 1, by omega⟩
    simp only [decimal, digitsUpTo]
    split
    · rfl
    · rw [ih (n / 10) (by omega) (by omega), ih (n / 10) (by omega) (by omega)]

/-- The start of a literal is a literal. -/
theorem prefix_decimal {n : Nat} (h : p <+: decimal n) : p = [] ∨ ∃ m, p = decimal m := by
  induction n using Nat.strong_induction_on generalizing p with
  | _ n ih =>
    by_cases whole : p = decimal n
    · exact .inr ⟨n, whole⟩
    · rw [decimal, digitsUpTo] at h whole
      split at h
      · rename_i small
        rw [if_pos small] at whole
        rcases List.prefix_cons_iff.mp h with rfl | ⟨t, rfl, rest⟩
        · exact .inl rfl
        · simp [List.prefix_nil.mp rest] at whole
      · rename_i large
        rw [if_neg large] at whole
        rw [digitsUpTo_eq_decimal (by omega)] at h whole
        rcases List.prefix_concat_iff.mp h with same | inside
        · exact absurd same whole
        · exact ih (n / 10) (by omega) inside

/-! ## Values -/

/-- A reader of values that has nothing left when the text of `j` is cut short. -/
def Stops (value : Bytes → Option (Json × Bytes)) (j : Json) : Prop :=
  ∀ p, p <+: render j → p ≠ render j → ∀ v rest, value p = some (v, rest) → rest = []

theorem skip_cut {depth : Nat} {j : Json} (plain : Plain depth j) (cut : p <+: render j ++ rest) :
    skip p = p := by
  obtain ⟨b, tail, eq, space, -⟩ := render_head plain
  rw [eq, List.cons_append] at cut
  rcases List.prefix_cons_iff.mp cut with rfl | ⟨t, rfl, -⟩
  · rfl
  · exact skip_cons t space

section Containers

variable {value : Bytes → Option (Json × Bytes)} {depth : Nat} {j : Json}

/-- The text of a value with more behind it, cut: the reader has nothing left, or the cut is
behind the value. -/
theorem Stops.cases (stops : Stops value j) (plain : Plain depth j) (reads : Reads value j)
    {t : Bytes} {b : UInt8} (cut : p <+: render j ++ b :: t) :
    (∀ v rest, value (skip p) = some (v, rest) → rest = []) ∨
      ∃ q, p = render j ++ b :: q ∧ q <+: t := by
  rw [skip_cut plain cut]
  obtain ⟨inside, part⟩ | ⟨q, rfl, rest⟩ := prefix_append_cases cut
  · exact .inl (stops p inside part)
  · rcases List.prefix_cons_iff.mp rest with rfl | ⟨q, rfl, behind⟩
    · refine .inl fun v rest read => ?_
      rw [reads [] (by simp [Delimited])] at read
      cases read
      rfl
    · exact .inr ⟨q, rfl, behind⟩

theorem parseItems_cut {items : List Json} (plain : ∀ j ∈ items, Plain depth j)
    (reads : ∀ j ∈ items, Reads value j) (stops : ∀ j ∈ items, Stops value j)
    (nonempty : items ≠ []) (cut : p <+: renderItems items ++ [0x5D])
    (short : p ≠ renderItems items ++ [0x5D]) (fuel : Nat) : parseItems value fuel p = none := by
  induction items generalizing p fuel with
  | nil => exact absurd rfl nonempty
  | cons j items ih =>
    obtain ⟨first, plain⟩ := List.forall_mem_cons.mp plain
    obtain ⟨read, reads⟩ := List.forall_mem_cons.mp reads
    obtain ⟨stop, stops⟩ := List.forall_mem_cons.mp stops
    cases fuel with
    | zero => rfl
    | succ fuel =>
      have ends (over_ : ∀ v rest, value (skip p) = some (v, rest) → rest = []) :
          parseItems value (fuel + 1) p = none := by
        cases got : value (skip p) with
        | none => simp [parseItems, got]
        | some r =>
          obtain ⟨v, rest⟩ := r
          simp [parseItems, got, over_ v rest got]
      cases items with
      | nil =>
        rw [renderItems] at cut short
        obtain ended | ⟨q, rfl, rest⟩ := stop.cases first read cut
        · exact ends ended
        · simp [List.prefix_nil.mp rest] at short
      | cons k items =>
        rw [renderItems, List.append_assoc, List.cons_append] at cut short
        obtain ended | ⟨q, rfl, rest⟩ := stop.cases first read cut
        · exact ends ended
        · have later :=
            ih plain reads stops (by simp) rest (fun whole => short (by rw [whole])) fuel
          have got := read (0x2C :: q) (delimited_of q)
          simp (disch := decide) only [parseItems, skip_render first, got, Option.bind_eq_bind,
            Option.bind_some, skip_cons, if_true, later]
          rfl

theorem parseName_quote (name q : Bytes) :
    parseName (quote name ++ 0x3A :: q) = some (Utf8.coerce name, skip q) := by
  have h := unquote_quote name (0x3A :: q)
  simp (disch := decide) only [parseName, quote, List.cons_append, List.append_assoc,
    List.nil_append, skip_cons, if_true, h, Option.bind_eq_bind, Option.bind_some]

/-- A name and the value behind it, cut: there is no name, or the cut is behind the colon. -/
theorem parseName_cut {name t : Bytes} (cut : p <+: quote name ++ 0x3A :: t) :
    parseName p = none ∨ ∃ q, p = quote name ++ 0x3A :: q ∧ q <+: t := by
  obtain ⟨inside, part⟩ | ⟨q, rfl, rest⟩ := prefix_append_cases cut
  · left
    rcases List.prefix_cons_iff.mp inside with rfl | ⟨q, rfl, rest⟩
    · rfl
    · have opened := unquote_cut name rest (fun whole => part (by rw [whole, quote]))
      simp (disch := decide) [parseName, skip_cons, opened]
  · rcases List.prefix_cons_iff.mp rest with rfl | ⟨q, rfl, behind⟩
    · have read := unquote_quote name []
      left
      simp (disch := decide) only [parseName, quote, List.append_nil, skip_cons, if_true, read,
        Option.bind_eq_bind, Option.bind_some, skip_nil]
    · exact .inr ⟨q, rfl, behind⟩

theorem parseMembers_cut {members : List (Bytes × Json)} (plain : ∀ m ∈ members, Plain depth m.2)
    (reads : ∀ m ∈ members, Reads value m.2) (stops : ∀ m ∈ members, Stops value m.2)
    (nonempty : members ≠ []) (cut : p <+: renderMembers members ++ [0x7D])
    (short : p ≠ renderMembers members ++ [0x7D]) (fuel : Nat) :
    parseMembers value fuel p = none := by
  induction members generalizing p fuel with
  | nil => exact absurd rfl nonempty
  | cons m members ih =>
    obtain ⟨name, j⟩ := m
    obtain ⟨first, plain⟩ := List.forall_mem_cons.mp plain
    obtain ⟨read, reads⟩ := List.forall_mem_cons.mp reads
    obtain ⟨stop, stops⟩ := List.forall_mem_cons.mp stops
    cases fuel with
    | zero => rfl
    | succ fuel =>
      have ends {q : Bytes} (over_ : ∀ v rest, value (skip q) = some (v, rest) → rest = []) :
          parseMembers value (fuel + 1) (quote name ++ 0x3A :: q) = none := by
        cases got : value (skip q) with
        | none => simp [parseMembers, parseName_quote, got]
        | some r =>
          obtain ⟨v, rest⟩ := r
          simp [parseMembers, parseName_quote, got, over_ v rest got]
      cases members with
      | nil =>
        rw [renderMembers, List.append_assoc, List.cons_append] at cut short
        obtain none | ⟨q, rfl, named⟩ := parseName_cut cut
        · simp [parseMembers, none]
        obtain ended | ⟨q, rfl, rest⟩ := stop.cases first read named
        · exact ends ended
        · simp [List.prefix_nil.mp rest] at short
      | cons k members =>
        rw [renderMembers, List.append_assoc, List.cons_append, List.append_assoc,
          List.cons_append] at cut short
        obtain none | ⟨q, rfl, named⟩ := parseName_cut cut
        · simp [parseMembers, none]
        obtain ended | ⟨q, rfl, rest⟩ := stop.cases first read named
        · exact ends ended
        · have later :=
            ih plain reads stops (by simp) rest (fun whole => short (by rw [whole])) fuel
          have got := read (0x2C :: q) (delimited_of q)
          simp (disch := decide) only [parseMembers, parseName_quote, skip_render first, got,
            Option.bind_eq_bind, Option.bind_some, skip_cons, if_true, later]
          rfl

/-- What is left of a text of which only the closing bracket is to come. -/
theorem eq_nil_of_cut {b : UInt8} (cut : p <+: [b]) (short : p ≠ [b]) : p = [] := by
  rcases List.prefix_cons_iff.mp cut with rfl | ⟨t, rfl, rest⟩
  · rfl
  · simp [List.prefix_nil.mp rest] at short

theorem parseArray_cut {items : List Json} (plain : ∀ j ∈ items, Plain depth j)
    (reads : ∀ j ∈ items, Reads value j) (stops : ∀ j ∈ items, Stops value j)
    (cut : p <+: renderItems items ++ [0x5D]) (short : p ≠ renderItems items ++ [0x5D]) :
    parseArray value p = none := by
  cases items with
  | nil =>
    rw [eq_nil_of_cut cut short]
    rfl
  | cons j items =>
    have opened : (skip p).head? ≠ some 0x5D := by
      obtain ⟨b, tail, eq, space, bracket⟩ := render_head (plain j (by simp))
      obtain ⟨more, starts⟩ : ∃ more, renderItems (j :: items) ++ [0x5D] = b :: more := by
        cases items <;> simp [renderItems, eq]
      rw [starts] at cut
      rcases List.prefix_cons_iff.mp cut with rfl | ⟨t, rfl, -⟩
      · simp
      · simpa [skip_cons _ space] using bracket
    rw [parseArray, if_neg opened]
    exact parseItems_cut plain reads stops (by simp) cut short _

theorem parseObject_cut {members : List (Bytes × Json)} (plain : ∀ m ∈ members, Plain depth m.2)
    (reads : ∀ m ∈ members, Reads value m.2) (stops : ∀ m ∈ members, Stops value m.2)
    (cut : p <+: renderMembers members ++ [0x7D]) (short : p ≠ renderMembers members ++ [0x7D]) :
    parseObject value p = none := by
  cases members with
  | nil =>
    rw [eq_nil_of_cut cut short]
    rfl
  | cons m members =>
    have opened : (skip p).head? ≠ some 0x7D := by
      obtain ⟨more, starts⟩ : ∃ more, renderMembers (m :: members) ++ [0x7D] = 0x22 :: more := by
        obtain ⟨name, j⟩ := m
        cases members <;> simp [renderMembers, quote]
      rw [starts] at cut
      rcases List.prefix_cons_iff.mp cut with rfl | ⟨t, rfl, -⟩
      · simp
      · simp (disch := decide) [skip_cons]
    rw [parseObject, if_neg opened]
    exact parseMembers_cut plain reads stops (by simp) cut short _

end Containers

theorem stops_of_take {j : Json}
    (none : ∀ k < (render j).length, parseScalar ((render j).take k) = none) :
    Stops parseScalar j := by
  intro p cut short v rest read
  have less : p.length < (render j).length :=
    lt_of_le_of_ne cut.length_le fun same => short (cut.eq_of_length same)
  rw [List.prefix_iff_eq_take.mp cut, none _ less] at read
  cases read

theorem stops_parseValue {depth : Nat} {j : Json} (plain : Plain depth j) :
    Stops (parseValue depth) j := by
  -- No text of a scalar starts like a container.
  have scalar (depth : Nat) {j : Json} {b : UInt8} {tail : Bytes} (eq : render j = b :: tail)
      (array : b ≠ 0x5B) (object : b ≠ 0x7B) (stops : Stops parseScalar j) :
      Stops (parseValue depth) j := by
    intro p cut short v rest read
    refine stops p cut short v rest ?_
    cases depth with
    | zero => exact read
    | succ depth =>
      rw [eq] at cut
      rcases List.prefix_cons_iff.mp cut with rfl | ⟨t, rfl, -⟩
      · exact read
      · simpa [parseValue, array, object] using read
  induction plain with
  | null depth =>
    refine scalar depth (j := .null) rfl (by decide) (by decide) (stops_of_take fun k less => ?_)
    have less : k < 4 := less
    interval_cases k <;> rfl
  | bool depth b =>
    cases b
    · refine scalar depth (j := .bool false) rfl (by decide) (by decide)
        (stops_of_take fun k less => ?_)
      have less : k < 5 := less
      interval_cases k <;> rfl
    · refine scalar depth (j := .bool true) rfl (by decide) (by decide)
        (stops_of_take fun k less => ?_)
      have less : k < 4 := less
      interval_cases k <;> rfl
  | num depth n =>
    obtain ⟨b, tail, hd, hb⟩ := decimal_cons n
    refine scalar depth (j := .num (decimal n)) hd (by rintro rfl; revert hb; decide)
      (by rintro rfl; revert hb; decide) fun p cut short v rest read => ?_
    rcases prefix_decimal cut with rfl | ⟨m, rfl⟩
    · cases read
    · have token := @parseScalar_num m [] (by simp [Delimited])
      rw [List.append_nil] at token
      cases token.symm.trans read
      rfl
  | minus depth n =>
    refine scalar depth (j := .num (0x2D :: decimal n)) rfl (by decide) (by decide)
      fun p cut short v rest read => ?_
    rcases List.prefix_cons_iff.mp cut with rfl | ⟨t, rfl, inside⟩
    · cases read
    · rcases prefix_decimal inside with rfl | ⟨m, rfl⟩
      · cases read
      · have token := @parseScalar_minus m [] (by simp [Delimited])
        rw [List.append_nil] at token
        cases token.symm.trans read
        rfl
  | str depth s =>
    refine scalar depth (j := .str s) rfl (by decide) (by decide) fun p cut short v rest read => ?_
    rcases List.prefix_cons_iff.mp cut with rfl | ⟨t, rfl, inside⟩
    · cases read
    · have opened := unquote_cut s inside fun whole => short (by rw [whole]; rfl)
      simp [parseScalar, opened] at read
  | @arr depth items plain ih =>
    intro p cut short v rest read
    rcases List.prefix_cons_iff.mp cut with rfl | ⟨t, rfl, inside⟩
    · cases read
    · have none := parseArray_cut plain (fun j mem => parseValue_render (plain j mem)) ih inside
        fun whole => short (by rw [whole, render])
      simp [parseValue, none] at read
  | @obj depth members plain ih =>
    intro p cut short v rest read
    rcases List.prefix_cons_iff.mp cut with rfl | ⟨t, rfl, inside⟩
    · cases read
    · have none := parseObject_cut plain (fun m mem => parseValue_render (plain m mem)) ih inside
        fun whole => short (by rw [whole, render])
      simp [parseValue, none] at read

/-! ## Objects -/

section Objects

variable {depth : Nat} {members : List (Bytes × Json)} (plain : ∀ m ∈ members, Plain depth m.2)
include plain

/-- The text of an object that is cut short is no value. -/
theorem parseWithin_cut (cut : p <+: render (obj members)) (short : p ≠ render (obj members)) :
    parseWithin (depth + 1) p = none := by
  rcases List.prefix_cons_iff.mp cut with rfl | ⟨t, rfl, inside⟩
  · rfl
  · have none := parseObject_cut plain (fun m mem => parseValue_render (plain m mem))
      (fun m mem => stops_parseValue (plain m mem)) inside fun whole =>
        short (by rw [whole, render])
    simp (disch := decide) [parseWithin, skip_cons, parseValue, none]

/-- The text of an object is no value with anything but white space behind it. -/
theorem parseWithin_behind (more : skip rest ≠ []) :
    parseWithin (depth + 1) (render (obj members) ++ rest) = none := by
  have read := parseObject_render plain (fun m mem => parseValue_render (plain m mem)) rest
  simp (disch := decide) [parseWithin, render, skip_cons, parseValue, read, more]

end Objects

end OctetDB.Json
