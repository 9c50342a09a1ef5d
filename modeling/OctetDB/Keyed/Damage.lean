import OctetDB.Keyed.Reopen
import OctetDB.Lib.Flip
import OctetDB.Lib.Json.Cut

/-!
# A damaged bit in the log

A flipped bit in the payload or the checksum of a frame is found by the checksum. A flipped bit
in a length moves the place where the checksum is looked for; what is then taken for the payload
is a record cut short or a record with more behind it, and neither decodes. But a length that has
become larger than the rest of the log is taken for an append that was interrupted, and the frame
is cut off with all that follow it.
-/

namespace OctetDB

/-! ## Payloads -/

theorem KeyedWALRecord.plain_members (r : KeyedWALRecord) :
    ∃ members, r.toJson = .obj members ∧ ∀ m ∈ members, Json.Plain 9999 m.2 := by
  have plain := r.plain_toJson.mono (show 3 ≤ 10000 by decide)
  cases shape : r.toJson with
  | obj members =>
    rw [shape] at plain
    cases plain with
    | obj plain => exact ⟨members, rfl, plain⟩
  | _ => simp [KeyedWALRecord.toJson] at shape

theorem KeyedWALRecord.unmarshal_cut (r : KeyedWALRecord) {p : Bytes} (cut : p <+: r.marshal)
    (short : p ≠ r.marshal) : unmarshal p = none := by
  obtain ⟨members, shape, plain⟩ := r.plain_members
  rw [marshal, shape] at cut short
  have refused : Json.parse p = none := Json.parseWithin_cut plain cut short
  rw [unmarshal, refused, Option.bind_none]

theorem KeyedWALRecord.unmarshal_behind (r : KeyedWALRecord) {rest : Bytes}
    (more : Json.skip rest ≠ []) : unmarshal (r.marshal ++ rest) = none := by
  obtain ⟨members, shape, plain⟩ := r.plain_members
  have refused : Json.parse (r.marshal ++ rest) = none := by
    rw [marshal, shape]
    exact Json.parseWithin_behind plain more
  rw [unmarshal, refused, Option.bind_none]

/-! ## Frames -/

/-- The records are such that their frames are written. -/
def Written (rs : List KeyedWALRecord) : Prop := ∀ r ∈ rs, r.marshal.length ≤ maxKeyedFrameBytes

theorem Written.fits {r : KeyedWALRecord} (h : r.marshal.length ≤ maxKeyedFrameBytes) :
    Frame.Fits 1 maxKeyedFrameBytes r.marshal :=
  ⟨Json.render_pos r.plain_toJson, h⟩

def flippedLength (r : KeyedWALRecord) (n : Nat) : Nat :=
  leNat (flipBit (putUint32 (UInt32.ofNat r.marshal.length)) n)

theorem flippedLength_cases {r : KeyedWALRecord} (small : r.marshal.length ≤ maxKeyedFrameBytes)
    {n : Nat} (header : n < 32) :
    flippedLength r n = r.marshal.length + 2 ^ n ∨
      flippedLength r n + 2 ^ n = r.marshal.length := by
  have length : leNat (putUint32 (UInt32.ofNat r.marshal.length)) = r.marshal.length := by
    rw [putUint32, leNat_leBytes, UInt32.toNat_ofNat']
    unfold maxKeyedFrameBytes at small
    omega
  have flipped := @leNat_flipBit (putUint32 (UInt32.ofNat r.marshal.length)) n
    (by simpa using header)
  rwa [length] at flipped

/-- The first word of a log is the length of a record. -/
theorem uint32_logOf {after : List KeyedWALRecord} (written : Written after)
    (nonempty : after ≠ []) : ∃ word rest, logOf after = putUint32 word ++ rest ∧
      word.toNat ≤ maxKeyedFrameBytes := by
  cases after with
  | nil => exact absurd rfl nonempty
  | cons r after =>
    have small := written r (by simp)
    refine ⟨UInt32.ofNat r.marshal.length,
      r.marshal ++ (putUint32 (checksumIEEE r.marshal) ++ logOf after), ?_, ?_⟩
    · simp only [logOf, List.map_cons, Frame.log_cons, Frame.frame, List.append_assoc]
    · rw [UInt32.toNat_ofNat']
      exact (Nat.mod_le _ _).trans small

/-- What stands behind a record, taken for a part of it. -/
theorem unmarshal_swallowed {r : KeyedWALRecord} {after : List KeyedWALRecord}
    (written : Written after)
    {k : Nat} (reaches : k + 4 ≤ 4 + (logOf after).length) (power : k = 1 ∨ k = 2 ∨ k = 4 ∨ 8 ≤ k)
    (check : uint32 ((putUint32 (checksumIEEE r.marshal) ++ logOf after).drop k) =
      checksumIEEE (r.marshal ++ (putUint32 (checksumIEEE r.marshal) ++ logOf after).take k)) :
    KeyedWALRecord.unmarshal
      (r.marshal ++ (putUint32 (checksumIEEE r.marshal) ++ logOf after).take k) = none := by
  have part (small : k = 1 ∨ k = 2) : False := by
    rw [List.drop_append_of_le_length (by simp; omega),
      List.take_append_of_le_length (by simp; omega)]
      at check
    exact checksumIEEE_part_ne r.marshal (logOf after) small check.symm
  by_cases short : k ≤ 2
  · exact (part (by omega)).elim
  have nonempty : after ≠ [] := by
    rintro rfl
    simp at reaches
    omega
  obtain ⟨word, rest, front, bound⟩ := uint32_logOf written nonempty
  by_cases four : k = 4
  · rw [four, List.drop_left' (by simp), List.take_left' (by simp), checksumIEEE_checksum, front,
      uint32_putUint32] at check
    rw [check] at bound
    exact absurd bound (by decide)
  -- The highest byte of a length is too small for white space.
  refine r.unmarshal_behind fun blank => ?_
  have space := List.dropWhile_eq_nil_iff.mp blank
  have top : UInt8.ofNat (word.toNat / 256 / 256 / 256) ∈
      (putUint32 (checksumIEEE r.marshal) ++ logOf after).take k := by
    have enough : 8 ≤ k := by omega
    rw [front, ← List.append_assoc, List.take_append,
      List.take_of_length_le (by simpa using enough)]
    simp [putUint32, leBytes]
  have white := space _ top
  have low : ∀ b : UInt8, b.toNat ≤ 4 → Json.isSpace b = false := by decide +kernel
  have byte : (UInt8.ofNat (word.toNat / 256 / 256 / 256)).toNat ≤ 4 := by
    rw [UInt8.toNat_ofNat']
    unfold maxKeyedFrameBytes at bound
    omega
  rw [low _ byte] at white
  cases white

/-- Bit `n` of a frame is in its length and makes it reach beyond the end of the log. -/
def Swallows (r : KeyedWALRecord) (after : List KeyedWALRecord) (n : Nat) : Prop :=
  n < 32 ∧ flippedLength r n ≤ maxKeyedFrameBytes ∧
    r.marshal.length + (logOf after).length < flippedLength r n

section Flipped

variable {r : KeyedWALRecord} {after : List KeyedWALRecord} {n : Nat}

theorem flipBit_header (header : n < 32) :
    flipBit (Frame.frame r.marshal ++ logOf after) n =
      flipBit (putUint32 (UInt32.ofNat r.marshal.length)) n ++
        (r.marshal ++ (putUint32 (checksumIEEE r.marshal) ++ logOf after)) := by
  rw [Frame.frame, List.append_assoc, flipBit_append_left (by simpa using header),
    List.append_assoc]

/-- A length that reaches beyond the end of the log looks like an interrupted append. -/
theorem next_swallows (h : Swallows r after n) :
    Frame.next 1 maxKeyedFrameBytes (flipBit (Frame.frame r.marshal ++ logOf after) n) =
      .error .torn := by
  obtain ⟨header, small, large⟩ := h
  unfold flippedLength at small large
  rw [flipBit_header header, Frame.next_header (by simp), if_neg (by omega),
    if_pos (by simp only [List.length_append, length_putUint32]; omega)]

/-- Any other flipped bit is found, or what is taken for a payload does not decode. -/
theorem next_flipBit (small : r.marshal.length ≤ maxKeyedFrameBytes) (written : Written after)
    (inside : n < 8 * (Frame.frame r.marshal).length) (h : ¬ Swallows r after n) :
    (∃ stop, (stop = .badLength ∨ stop = .badChecksum) ∧
      Frame.next 1 maxKeyedFrameBytes (flipBit (Frame.frame r.marshal ++ logOf after) n) =
        .error stop) ∨
    ∃ q rest, KeyedWALRecord.unmarshal q = none ∧
      Frame.next 1 maxKeyedFrameBytes (flipBit (Frame.frame r.marshal ++ logOf after) n) =
        .ok (q, rest) := by
  have fits := Written.fits small
  by_cases header : n < 32
  · rw [flipBit_header header, Frame.next_header (by simp), ← flippedLength]
    split
    · exact .inl ⟨_, .inl rfl, rfl⟩
    rename_i range
    split
    · rename_i beyond
      simp only [List.length_append, length_putUint32] at beyond
      exact absurd ⟨header, by omega, by omega⟩ h
    rename_i reaches
    simp only [List.length_append, length_putUint32, not_lt] at reaches
    split
    · exact .inl ⟨_, .inr rfl, rfl⟩
    rename_i check
    refine .inr ⟨_, _, ?_, rfl⟩
    have positive : 0 < 2 ^ n := by positivity
    rcases flippedLength_cases small header with more | less
    · simp only [more, ne_eq, not_not, List.drop_length_add_append,
        List.take_length_add_append] at check ⊢
      refine unmarshal_swallowed written (by omega) ?_ check
      rcases n with _ | _ | _ | n
      · simp
      · simp
      · simp
      · have : 0 < 2 ^ n := by positivity
        right; right; right
        rw [pow_add]
        omega
    · have cut : (r.marshal ++ (putUint32 (checksumIEEE r.marshal) ++ logOf after)).take
          (flippedLength r n) = r.marshal.take (flippedLength r n) :=
        List.take_append_of_le_length (by omega)
      rw [cut]
      refine r.unmarshal_cut (List.take_prefix _ _) fun whole => ?_
      have := congrArg List.length whole
      rw [List.length_take] at this
      omega
  · -- Behind the header: the payload or the checksum has one other byte.
    left
    refine ⟨.badChecksum, .inr rfl, ?_⟩
    obtain ⟨m, rfl⟩ := Nat.exists_eq_add_of_le (Nat.not_lt.mp header)
    have front := flipBit_append_right (putUint32 (UInt32.ofNat r.marshal.length))
      (r.marshal ++ (putUint32 (checksumIEEE r.marshal) ++ logOf after)) m
    rw [length_putUint32] at front
    rw [Frame.frame, List.append_assoc, List.append_assoc, front]
    by_cases payload : m < 8 * r.marshal.length
    · obtain ⟨before, b, b', behind, split, flipped, differs⟩ := flipBit_split payload
      rw [flipBit_append_left payload]
      refine Frame.next_mismatch fits (by decide) (by simp) (by simp) ?_ _
      have word := uint32_putUint32 (checksumIEEE r.marshal) []
      rw [List.append_nil] at word
      rw [word, flipped]
      conv_lhs => rw [split]
      exact (checksumIEEE_ne differs).symm
    · obtain ⟨m, rfl⟩ := Nat.exists_eq_add_of_le (Nat.not_lt.mp payload)
      have bit : m < 8 * (putUint32 (checksumIEEE r.marshal)).length := by
        simp only [Frame.length_frame, length_putUint32] at inside ⊢
        omega
      rw [flipBit_append_right, flipBit_append_left bit]
      refine Frame.next_mismatch fits (by decide) rfl (by simp) ?_ _
      exact uint32_flipBit_ne _ (by simpa using bit)

end Flipped

/-! ## Recovery -/

theorem Written.fits_map {rs : List KeyedWALRecord} (written : Written rs) :
    ∀ p ∈ rs.map KeyedWALRecord.marshal, Frame.Fits 1 maxKeyedFrameBytes p := by
  intro p mem
  obtain ⟨r, listed, rfl⟩ := List.mem_map.mp mem
  exact Written.fits (written r listed)

/-- Every bit of a log is a bit of a frame. -/
theorem bit_of_logOf {rs : List KeyedWALRecord} {n : Nat} (inside : n < 8 * (logOf rs).length) :
    ∃ before r after m, rs = before ++ r :: after ∧ n = 8 * (logOf before).length + m ∧
      m < 8 * (Frame.frame r.marshal).length := by
  induction rs generalizing n with
  | nil => simp at inside
  | cons r rs ih =>
    have size : (logOf (r :: rs)).length = (Frame.frame r.marshal).length + (logOf rs).length := by
      simp [logOf]
    by_cases first : n < 8 * (Frame.frame r.marshal).length
    · exact ⟨[], r, rs, n, rfl, by simp, first⟩
    · obtain ⟨k, rfl⟩ := Nat.exists_eq_add_of_le (Nat.not_lt.mp first)
      obtain ⟨before, q, after, m, rfl, rfl, bound⟩ := ih (n := k) (by omega)
      refine ⟨r :: before, q, after, m, rfl, ?_, bound⟩
      have grown : (logOf (r :: before)).length =
          (Frame.frame r.marshal).length + (logOf before).length := by
        simp [logOf]
      omega

theorem flipBit_logOf (before : List KeyedWALRecord) (r : KeyedWALRecord)
    (after : List KeyedWALRecord) (m : Nat) :
    flipBit (logOf (before ++ r :: after)) (8 * (logOf before).length + m) =
      logOf before ++ flipBit (Frame.frame r.marshal ++ logOf after) m := by
  have split : logOf (before ++ r :: after) =
      logOf before ++ (Frame.frame r.marshal ++ logOf after) := by
    simp [logOf]
  rw [split, flipBit_append_right]

theorem replayKeyedWAL_swallows {before after : List KeyedWALRecord} {r : KeyedWALRecord} {m : Nat}
    (written : Written before) (h : Swallows r after m) (db : KeyedDB) :
    replayKeyedWAL db (logOf before ++ flipBit (Frame.frame r.marshal ++ logOf after) m) =
      replayKeyedWAL db (logOf before) := by
  have cut : Frame.scan 1 maxKeyedFrameBytes
      (logOf before ++ flipBit (Frame.frame r.marshal ++ logOf after) m) = ⟨_, .torn⟩ :=
    Frame.scan_log_append written.fits_map (by decide) (next_swallows h)
  have whole : Frame.scan 1 maxKeyedFrameBytes (logOf before) = ⟨_, .done⟩ :=
    Frame.scan_log written.fits_map (by decide)
  simp only [replayKeyedWAL, cut, whole]
  rw [← logOf, List.take_left]

/-- A log in which a flipped bit is found is refused. -/
theorem replayKeyedWAL_damaged {before after : List KeyedWALRecord} {r : KeyedWALRecord} {m : Nat}
    (written : Written (before ++ r :: after)) (inside : m < 8 * (Frame.frame r.marshal).length)
    (h : ¬ Swallows r after m) (db : KeyedDB) (t : KeyedDB × Bytes) :
    replayKeyedWAL db (logOf before ++ flipBit (Frame.frame r.marshal ++ logOf after) m) ≠
      .ok t := by
  obtain ⟨first, small, later⟩ : Written before ∧ r.marshal.length ≤ maxKeyedFrameBytes ∧
      Written after := by
    simpa [Written, or_imp, forall_and] using written
  intro replayed
  unfold replayKeyedWAL at replayed
  obtain ⟨stop, damage, next⟩ | ⟨q, rest, undecodable, next⟩ := next_flipBit small later inside h
  · have scan : Frame.scan 1 maxKeyedFrameBytes
        (logOf before ++ flipBit (Frame.frame r.marshal ++ logOf after) m) = ⟨_, stop⟩ :=
      Frame.scan_log_append first.fits_map (by decide) next
    simp only [scan] at replayed
    split at replayed
    · cases replayed
    · rcases damage with rfl | rfl <;> cases replayed
  · obtain ⟨more, stop, scan⟩ := Frame.scan_log_append_ok first.fits_map (by decide) next
    rw [← logOf] at scan
    simp only [scan] at replayed
    split at replayed
    · cases replayed
    · rename_i s loop
      obtain ⟨u, -, loop⟩ := foldlM_append_ok.mp loop
      obtain ⟨v, frame, -⟩ := foldlM_cons_ok.mp loop
      simp [replayFrame, undecodable] at frame

/-- Opening depends on a log only through its replay. -/
theorem openKeyed_congr {options : KeyedOptions} {format : KeyedFormat}
    (d : Directory) {w w' : Bytes}
    (same : ∀ db, replayKeyedWAL db w = replayKeyedWAL db w') :
    openKeyed options format { d with wal := some w } =
      openKeyed options format { d with wal := some w' } := by
  have storage (db : KeyedDB) : openStorage db { d with wal := some w } =
      openStorage db { d with wal := some w' } := by
    simp only [openStorage, ensureKeyedFormat, Directory.isEmpty]
    cases d.format with
    | none => simp
    | some data =>
      simp only
      split
      · rfl
      · cases loaded : loadKeyedSnapshot db d.snapshot with
        | error err => simp [loaded, bind, Except.bind]
        | ok u => simp [loaded, bind, Except.bind, same u]
  unfold openKeyed
  simp only [storage]

/-- The state has all decisions of a log: recovery has applied them, or the snapshot covers them. -/
def Recovers (t : KeyedDB) (rs : List KeyedWALRecord) : Prop := ∀ r ∈ rs, r.sequence ≤ t.sequence

/-- Where a log opens, the frames before one of its records recover all its decisions only if the
snapshot covers them. -/
theorem recovers_leading_iff {options : KeyedOptions} {format : KeyedFormat} {d e : Directory}
    {t : KeyedDB} {before after : List KeyedWALRecord} {r : KeyedWALRecord}
    (written : Written (before ++ r :: after))
    (opens : openKeyed options format
      { d with wal := some (logOf (before ++ r :: after)) } = .ok (t, e)) :
    (∀ t e, openKeyed options format { d with wal := some (logOf before) } = .ok (t, e) →
      Recovers t (before ++ r :: after)) ↔
    ∀ q ∈ before ++ r :: after, q.sequence ≤ d.readSnapshot.sequence := by
  obtain ⟨bounds, normal, stored⟩ := bind_ok.mp opens
  obtain ⟨marked, loaded, wal, marks, loads, replay, -⟩ := openStorage_ok_iff.mp stored
  have marker : d.format = some format.contents := by
    unfold ensureKeyedFormat at marks
    grind [Directory.isEmpty]
  rw [(ensureKeyedFormat_files marks).1] at loads
  rw [(ensureKeyedFormat_files marks).2, Option.getD_some, ← List.append_nil (logOf _),
    replayKeyedWAL_coerced written (.inl rfl), List.map_append, List.map_cons] at replay
  generalize run : List.foldlM replayRecord _ _ = result at replay
  rcases result with err | s
  · cases replay
  obtain ⟨u, first, later⟩ := foldlM_append_ok.mp run
  obtain ⟨v, here, -⟩ := foldlM_cons_ok.mp later
  have leads := @openStorage_torn _ _ _ d marker loads
    (fun q mem => written q (List.mem_append_left _ mem)) _ first _ (.inl rfl)
  rw [List.append_nil] at leads
  have since : u.Since loaded.sequence := Replay.Since.run (.inl rfl) first
  rw [openKeyed_ok normal]
  constructor
  · intro recovers
    have all := recovers u.db _ leads
    rw [Recovers, since.covered here (all r (by simp)), loadKeyedSnapshot_sequence loads] at all
    exact all
  · intro covered t e opened q mem
    cases leads.symm.trans opened
    exact UInt64.le_trans (covered q mem) (loadKeyedSnapshot_sequence loads ▸ since.le)

theorem recovers_flipBit_iff (options : KeyedOptions) (format : KeyedFormat) (d : Directory)
    {rs : List KeyedWALRecord} (written : Written rs) {n : Nat}
    (inside : n < 8 * (logOf rs).length) :
    (∀ t e, openKeyed options format { d with wal := some (flipBit (logOf rs) n) } = .ok (t, e) →
      Recovers t rs) ↔
    ∀ before r after m, rs = before ++ r :: after → n = 8 * (logOf before).length + m →
      Swallows r after m → ∀ t e,
        openKeyed options format { d with wal := some (logOf before) } = .ok (t, e) →
        Recovers t rs := by
  have swallowed {before after : List KeyedWALRecord} {r : KeyedWALRecord} {m : Nat}
      (shape : rs = before ++ r :: after) (bit : n = 8 * (logOf before).length + m)
      (swallows : Swallows r after m) :
      openKeyed options format { d with wal := some (flipBit (logOf rs) n) } =
        openKeyed options format { d with wal := some (logOf before) } := by
    rw [shape, bit, flipBit_logOf]
    refine openKeyed_congr d (replayKeyedWAL_swallows (fun q mem => written q ?_) swallows)
    rw [shape]
    exact List.mem_append_left _ mem
  constructor
  · intro recovers before r after m shape bit swallows t e opened
    exact recovers t e ((swallowed shape bit swallows).trans opened)
  · intro recovers t e opened
    obtain ⟨before, r, after, m, shape, bit, bound⟩ := bit_of_logOf inside
    by_cases swallows : Swallows r after m
    · rw [swallowed shape bit swallows] at opened
      exact recovers before r after m shape bit swallows t e opened
    · obtain ⟨bounds, -, stored⟩ := bind_ok.mp opened
      obtain ⟨marked, loaded, wal, format, -, replay, -⟩ := openStorage_ok_iff.mp stored
      rw [(ensureKeyedFormat_files format).2, Option.getD_some, shape, bit, flipBit_logOf] at replay
      exact absurd replay (replayKeyedWAL_damaged (shape ▸ written) bound swallows loaded _)

/-- A log of whole frames with one flipped bit is refused or recovers all its decisions, unless
the bit makes a length reach beyond the end of the log and the frames before recover fewer
decisions. Where the intact log opens, these recover fewer unless the snapshot covers it. -/
theorem flipped_bit_recovers_iff (options : KeyedOptions) (format : KeyedFormat) (d : Directory)
    {rs : List KeyedWALRecord} (written : Written rs) {n : Nat}
    (inside : n < 8 * (logOf rs).length) :
    ((∀ t e, openKeyed options format { d with wal := some (flipBit (logOf rs) n) } = .ok (t, e) →
      Recovers t rs) ↔
    ∀ before r after m, rs = before ++ r :: after → n = 8 * (logOf before).length + m →
      Swallows r after m → ∀ t e,
        openKeyed options format { d with wal := some (logOf before) } = .ok (t, e) →
        Recovers t rs) ∧
    ((∃ t e, openKeyed options format { d with wal := some (logOf rs) } = .ok (t, e)) →
      ((∀ t e, openKeyed options format { d with wal := some (flipBit (logOf rs) n) } =
        .ok (t, e) → Recovers t rs) ↔
      ∀ before r after m, rs = before ++ r :: after → n = 8 * (logOf before).length + m →
        Swallows r after m → ∀ q ∈ rs, q.sequence ≤ d.readSnapshot.sequence)) := by
  have leading := recovers_flipBit_iff options format d written inside
  refine ⟨leading, fun ⟨t, e, opens⟩ => leading.trans ?_⟩
  refine forall₄_congr fun before r after m => forall₃_congr fun shape _ _ => ?_
  subst shape
  exact recovers_leading_iff written opens

section OneDecision

def firstDecision : KeyedWALRecord :=
  { sequence := 1, commandID := ascii "a", applied := true, result := ascii "null" }

theorem firstDecision_written : Written [firstDecision] := by
  intro r mem
  obtain rfl := List.mem_singleton.mp mem
  decide +kernel

/-- A bit of the payload. -/
theorem flipped_payload_recovers : 100 < 8 * (logOf [firstDecision]).length ∧ ∀ t e,
    openKeyed smallOptions .keyed
      { decidedStore.dir with wal := some (flipBit (logOf [firstDecision]) 100) } = .ok (t, e) →
    Recovers t [firstDecision] := by
  have inside : 100 < 8 * (logOf [firstDecision]).length := by decide +kernel
  refine ⟨inside, (flipped_bit_recovers_iff smallOptions .keyed decidedStore.dir
    firstDecision_written inside).1.mpr ?_⟩
  intro before r after m shape bit swallows
  cases before with
  | nil =>
    rw [logOf_nil, List.length_nil] at bit
    have := swallows.1
    omega
  | cons q before => simp at shape

set_option maxRecDepth 20000 in
/-- Bit 10 of the first length: the decision that the intact log recovers is cut off. -/
theorem flipped_length_loses_decision :
    decidedStore.dir.wal = some (logOf [firstDecision]) ∧
    (openKeyed smallOptions .keyed decidedStore.dir).toOption.map (·.1.sequence) = some 1 ∧
    ∃ t e, openKeyed smallOptions .keyed
        { decidedStore.dir with wal := some (flipBit (logOf [firstDecision]) 10) } = .ok (t, e) ∧
      ¬ Recovers t [firstDecision] ∧ e.wal = some [] := by
  have read : (openKeyed smallOptions .keyed
      { decidedStore.dir with wal := some (flipBit (logOf [firstDecision]) 10) }).toOption.map
        (fun r => (r.1.sequence, r.2.wal)) = some (0, some []) := by
    decide +kernel
  obtain ⟨⟨t, e⟩, opened, values⟩ := Option.map_eq_some_iff.mp read
  obtain ⟨sequence, wal⟩ := Prod.mk.inj values
  refine ⟨by decide +kernel, by decide +kernel, t, e, toOption_eq_some.mp opened,
    fun recovers => ?_, wal⟩
  have reached := recovers firstDecision (by simp)
  rw [sequence] at reached
  exact absurd reached (by decide)

end OneDecision

end OctetDB
