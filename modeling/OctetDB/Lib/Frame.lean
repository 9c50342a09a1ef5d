import OctetDB.Lib.Checksum

/-!
# Logs of checksummed frames

A frame is a payload behind its length and before its CRC-32. A log is read frame by frame
from the front: reading stops at the end of the log, at a tail too short for its frame, or at
damage. A log of whole frames followed by the start of another one reads as exactly the
payloads of the whole frames.
-/

namespace OctetDB.Frame

def frame (payload : Bytes) : Bytes :=
  putUint32 (UInt32.ofNat payload.length) ++ (payload ++ putUint32 (checksumIEEE payload))

inductive Stop where
  | done
  | torn
  | badLength
  | badChecksum
  deriving DecidableEq, Repr

/-- The payload at the front of a log and the rest of the log, or why there is none. Lengths
outside `least` and `most` are damage. -/
def next (least most : Nat) (log : Bytes) : Except Stop (Bytes × Bytes) :=
  let length := (uint32 log).toNat
  let payload := (log.drop 4).take length
  if log = [] then .error .done
  else if log.length < 4 then .error .torn
  else if length < least ∨ length > most then .error .badLength
  else if log.length < 4 + length + 4 then .error .torn
  else if uint32 (log.drop (4 + length)) ≠ checksumIEEE payload then .error .badChecksum
  else .ok (payload, log.drop (4 + length + 4))

/-- What a log reads as: its payloads, and why reading stopped. -/
structure Scan where
  payloads : List Bytes
  stop : Stop
  deriving DecidableEq, Repr

def scanUpTo (least most : Nat) : Nat → Bytes → Scan
  | 0, _ => ⟨[], .done⟩
  | fuel + 1, log =>
    match next least most log with
    | .error stop => ⟨[], stop⟩
    | .ok (payload, rest) =>
      let scan := scanUpTo least most fuel rest
      { scan with payloads := payload :: scan.payloads }

/-- Every frame takes at least one byte, so the length of the log is enough fuel. -/
def scan (least most : Nat) (log : Bytes) : Scan := scanUpTo least most (log.length + 1) log

def log (payloads : List Bytes) : Bytes := payloads.flatMap frame

@[simp] theorem log_nil : log [] = [] := rfl
@[simp] theorem log_cons (payload : Bytes) (payloads : List Bytes) :
    log (payload :: payloads) = frame payload ++ log payloads := rfl
@[simp] theorem log_append (ps qs : List Bytes) : log (ps ++ qs) = log ps ++ log qs := by
  simp [log]

@[simp] theorem length_frame (payload : Bytes) : (frame payload).length = payload.length + 8 := by
  simp [frame]; omega

variable {payload : Bytes} {payloads : List Bytes}

section Bounds

variable {least most : Nat}

/-- The payload is one the reader accepts. -/
def Fits (least most : Nat) (payload : Bytes) : Prop :=
  least ≤ payload.length ∧ payload.length ≤ most

theorem next_header {header : Bytes} (four : header.length = 4) (body : Bytes) :
    next least most (header ++ body) =
      if leNat header < least ∨ leNat header > most then .error .badLength
      else if body.length < leNat header + 4 then .error .torn
      else if uint32 (body.drop (leNat header)) ≠ checksumIEEE (body.take (leNat header)) then
        .error .badChecksum
      else .ok (body.take (leNat header), body.drop (leNat header + 4)) := by
  have value : (uint32 (header ++ body)).toNat = leNat header := by
    have bound := leNat_lt header
    rw [four] at bound
    rw [uint32, List.take_append_of_le_length (by omega), List.take_of_length_le (by omega),
      UInt32.toNat_ofNat']
    omega
  have nonempty : header ++ body ≠ [] := by
    intro h
    simp [List.append_eq_nil_iff.mp h] at four
  have behind (k : Nat) : (header ++ body).drop (4 + k) = body.drop k := by
    rw [← List.drop_drop, ← four, List.drop_left]
  have start := behind 0
  rw [Nat.add_zero, List.drop_zero] at start
  simp only [next, value, start, Nat.add_assoc, behind, List.length_append, four]
  rw [if_neg nonempty, if_neg (by omega)]
  congr 2
  rw [Nat.add_comm (leNat header) 4, Nat.add_lt_add_iff_left]

theorem uint32_frame (small : payload.length < 2 ^ 32) (rest : Bytes) :
    (uint32 (frame payload ++ rest)).toNat = payload.length := by
  rw [frame, List.append_assoc, uint32_putUint32, UInt32.toNat_ofNat']
  omega

theorem next_frame (fits : Fits least most payload) (word : most < 2 ^ 32) (rest : Bytes) :
    next least most (frame payload ++ rest) = .ok (payload, rest) := by
  obtain ⟨low, high⟩ := fits
  have length := uint32_frame (show payload.length < 2 ^ 32 by omega) rest
  have size : (frame payload ++ rest).length = payload.length + 8 + rest.length := by simp
  have body : ((frame payload ++ rest).drop 4).take payload.length = payload := by
    simp [frame]
  have check : uint32 ((frame payload ++ rest).drop (4 + payload.length)) =
      checksumIEEE payload := by
    simp [frame, ← List.drop_drop]
  have behind : (frame payload ++ rest).drop (4 + payload.length + 4) = rest := by
    simp [← List.drop_drop, frame]
  have nonempty : frame payload ++ rest ≠ [] := by
    intro h; rw [h, List.length_nil] at size; omega
  simp only [next, length, body, check, behind]
  rw [if_neg nonempty, if_neg (by omega), if_neg (by omega), if_neg (by omega), if_neg (by simp)]

/-- A frame whose payload and checksum do not belong together. -/
theorem next_mismatch {text check : Bytes} (fits : Fits least most payload) (word : most < 2 ^ 32)
    (same : text.length = payload.length) (four : check.length = 4)
    (mismatch : uint32 check ≠ checksumIEEE text) (rest : Bytes) :
    next least most (putUint32 (UInt32.ofNat payload.length) ++ (text ++ (check ++ rest))) =
      .error .badChecksum := by
  obtain ⟨low, high⟩ := fits
  have length : leNat (putUint32 (UInt32.ofNat payload.length)) = payload.length := by
    rw [putUint32, leNat_leBytes, UInt32.toNat_ofNat']
    omega
  have word : uint32 (check ++ rest) = uint32 check := by
    rw [uint32, uint32, List.take_append_of_le_length (by omega)]
  rw [next_header (length_putUint32 _), length, if_neg (by omega), if_neg (by simp; omega), ← same,
    List.drop_left, List.take_left, if_pos (by rwa [word])]

/-- The start of a frame that is not the whole frame. -/
theorem next_take_frame (fits : Fits least most payload) (word : most < 2 ^ 32) {n : Nat}
    (strict : n < (frame payload).length) :
    next least most ((frame payload).take n) = .error (if n = 0 then .done else .torn) := by
  obtain ⟨low, high⟩ := fits
  have size : ((frame payload).take n).length = n := by
    rw [List.length_take]; omega
  by_cases empty : n = 0
  · simp [next, empty]
  have nonempty : (frame payload).take n ≠ [] := by
    intro h; rw [h, List.length_nil] at size; omega
  by_cases header : n < 4
  · simp only [next]
    rw [if_neg nonempty, if_pos (by omega), if_neg empty]
  have length : (uint32 ((frame payload).take n)).toNat = payload.length := by
    have whole := uint32_frame (show payload.length < 2 ^ 32 by omega) []
    rw [List.append_nil] at whole
    rw [← whole, uint32, uint32, List.take_take, min_eq_left (by omega)]
  rw [length_frame] at strict
  simp only [next, length]
  rw [if_neg nonempty, if_neg (by omega), if_neg (by omega), if_pos (by omega), if_neg empty]

theorem length_le_log (payloads : List Bytes) : payloads.length ≤ (log payloads).length := by
  induction payloads with
  | nil => simp
  | cons p payloads ih =>
    simp only [log_cons, List.length_append, length_frame, List.length_cons]
    omega

/-- Whole frames are read one after the other, and then the tail. -/
theorem scan_log_tail (fits : ∀ p ∈ payloads, Fits least most p) (word : most < 2 ^ 32)
    (tail : Bytes) : ∃ fuel,
      scan least most (log payloads ++ tail) =
        ⟨payloads ++ (scanUpTo least most (fuel + 1) tail).payloads,
          (scanUpTo least most (fuel + 1) tail).stop⟩ := by
  refine ⟨(log payloads ++ tail).length - payloads.length, ?_⟩
  have enough : (log payloads ++ tail).length + 1 =
      payloads.length + ((log payloads ++ tail).length - payloads.length + 1) := by
    have := length_le_log payloads
    simp only [List.length_append]
    omega
  rw [scan, enough]
  generalize (log payloads ++ tail).length - payloads.length + 1 = fuel
  clear enough
  induction payloads with
  | nil => simp
  | cons p payloads ih =>
    have read := next_frame (fits p (by simp)) word (log payloads ++ tail)
    have later := ih fun q hq => fits q (by simp [hq])
    simp [Nat.succ_add, scanUpTo, read, later]

/-- Whole frames, followed by a tail that is not one, read as their payloads. -/
theorem scan_log_append (fits : ∀ p ∈ payloads, Fits least most p) (word : most < 2 ^ 32)
    {tail : Bytes} {stop : Stop} (stops : next least most tail = .error stop) :
    scan least most (log payloads ++ tail) = ⟨payloads, stop⟩ := by
  obtain ⟨fuel, scan⟩ := scan_log_tail fits word tail
  simp [scan, scanUpTo, stops]

/-- Behind whole frames another payload is read. -/
theorem scan_log_append_ok (fits : ∀ p ∈ payloads, Fits least most p) (word : most < 2 ^ 32)
    {tail q rest : Bytes} (read : next least most tail = .ok (q, rest)) :
    ∃ more stop, scan least most (log payloads ++ tail) = ⟨payloads ++ q :: more, stop⟩ := by
  obtain ⟨fuel, scan⟩ := scan_log_tail fits word tail
  simp only [scanUpTo, read] at scan
  exact ⟨_, _, scan⟩

/-- A tail that a crash may leave behind whole frames: nothing, or the start of a frame. -/
def Torn (least most : Nat) (tail : Bytes) : Prop :=
  tail = [] ∨ next least most tail = .error .torn

theorem torn_take_frame (fits : Fits least most payload) (word : most < 2 ^ 32) {n : Nat}
    (strict : n < (frame payload).length) : Torn least most ((frame payload).take n) := by
  have read := next_take_frame fits word strict
  by_cases empty : n = 0
  · exact .inl (by simp [empty])
  · exact .inr (by rw [read, if_neg empty])

/-- A log cut anywhere is the log of the first frames, as many as are whole, and a torn tail. -/
theorem take_log (fits : ∀ p ∈ payloads, Fits least most p) (word : most < 2 ^ 32) (n : Nat) :
    ∃ before after tail, payloads = before ++ after ∧
      (log payloads).take n = log before ++ tail ∧ Torn least most tail ∧
      ∀ p rest, after = p :: rest → n < (log (before ++ [p])).length := by
  induction payloads generalizing n with
  | nil => exact ⟨[], [], [], rfl, by simp, .inl rfl, nofun⟩
  | cons p payloads ih =>
    obtain ⟨first, later⟩ := List.forall_mem_cons.mp fits
    by_cases whole : (frame p).length ≤ n
    · obtain ⟨before, after, tail, rfl, cut, torn, most⟩ := ih later (n - (frame p).length)
      refine ⟨p :: before, after, tail, rfl, ?_, torn, fun q rest split => ?_⟩
      · rw [log_cons, List.take_append, List.take_of_length_le whole, cut, log_cons,
          List.append_assoc]
      · have := most q rest split
        rw [List.cons_append, log_cons, List.length_append]
        omega
    · refine ⟨[], p :: payloads, (frame p).take n, rfl, ?_, torn_take_frame first word (by omega),
        ?_⟩
      · rw [log_cons, List.take_append_of_le_length (by omega), log_nil, List.nil_append]
      · rintro q rest ⟨⟩
        simpa using whole

theorem scan_log (fits : ∀ p ∈ payloads, Fits least most p) (word : most < 2 ^ 32) :
    scan least most (log payloads) = ⟨payloads, .done⟩ := by
  simpa using scan_log_append fits word (show next least most [] = .error .done by simp [next])

theorem scan_frame (fits : Fits least most payload) (word : most < 2 ^ 32) :
    scan least most (frame payload) = ⟨[payload], .done⟩ := by
  simpa using scan_log (List.forall_mem_singleton.mpr fits) word

end Bounds

end OctetDB.Frame
