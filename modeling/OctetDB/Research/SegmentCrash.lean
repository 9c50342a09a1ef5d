import OctetDB.Research.Segments
import OctetDB.Lib.Fold

/-!
# Crashes while the log is written

A crash is put behind any file operation of a call. It leaves of every file what was durable, and
any part of the rest from its front. The reader does not manage all of that: it takes a segment
with less than a header for damage, so does it with four or more bytes of a footer, which it reads
as the length of a frame, and a torn record may stop with bytes that it takes for a footer. After
every other crash it has the records that were durable and some of those that were written behind
them, and the log goes on from there.
-/

namespace OctetDB.Research

open Accounts

/-- The last write was that of a footer. -/
def File.Footed (f : File) : Prop := m1EndMagic <+: f.tail

/-- What is left of a file can be told from damage: its header is whole, a torn footer is too short
for the length of a frame, and nothing but a whole file stops like a closed segment. -/
structure File.Legible (f : File) (left : Bytes) : Prop where
  header : segmentHeaderSize ≤ left.length
  footer : f.Footed → left = f.data ∨ left.length + segmentFooterSize < f.data.length + 4
  record : EndsClosed left → left = f.data

/-- What a crash has left of the files can be told from damage. -/
def Disk.Legible (d : Disk) (image : List (UInt64 × Bytes)) : Prop :=
  List.Forall₂ (fun e i => e.2.Legible i.2) d image

/-! ## The order of segments -/

variable {n : Nat} {gs : List Segment} {image : List (UInt64 × Bytes)} {tail : Bytes}
  {P : Disk → Prop} {r : LogRecord}

theorem chained_append {hs : List Segment} :
    Chained n (gs ++ hs) ↔
      Chained n gs ∧ Chained (n + (gs.flatMap Segment.records).length) hs := by
  induction gs generalizing n with
  | nil => simp [Chained]
  | cons g gs ih =>
    simp only [List.cons_append, Chained, ih, List.flatMap_cons, List.length_append, and_assoc,
      Nat.add_assoc]

/-- Where a segment of a chain stands. -/
theorem Chained.place (chained : Chained n gs) {g : Segment} (mem : g ∈ gs) :
    ∃ m, g.first = UInt64.ofNat m ∧ n ≤ m ∧
      m + g.records.length ≤ n + (gs.flatMap Segment.records).length := by
  induction gs generalizing n with
  | nil => cases mem
  | cons h gs ih =>
    obtain ⟨first, -, later⟩ := chained
    rw [List.flatMap_cons, List.length_append]
    rcases List.mem_cons.mp mem with rfl | mem
    · exact ⟨n, first, le_rfl, by omega⟩
    · obtain ⟨m, at_, low, high⟩ := ih later mem
      exact ⟨m, at_, by omega, by omega⟩

/-- The names of the segments before the last one of a chain are smaller. -/
theorem Chained.first_lt {g : Segment} (chained : Chained n (gs ++ [g]))
    (nonempty : ∀ h ∈ gs, h.records ≠ [])
    (room : n + (gs.flatMap Segment.records).length < 2 ^ 64) :
    ∀ h ∈ gs, h.first < g.first := by
  intro h mem
  obtain ⟨before, last, -⟩ := chained_append.mp chained
  obtain ⟨m, first, -, high⟩ := before.place mem
  have some := List.length_pos_iff.mpr (nonempty h mem)
  rw [first, last, UInt64.lt_iff_toNat_lt, UInt64.toNat_ofNat', UInt64.toNat_ofNat']
  omega

theorem Chained.pairwise (chained : Chained n gs) (nonempty : ∀ h ∈ gs, h.records ≠ [])
    (room : n + (gs.flatMap Segment.records).length < 2 ^ 64) :
    gs.Pairwise fun g h => g.first ≤ h.first := by
  induction gs using List.reverseRecOn with
  | nil => exact .nil
  | append_singleton gs g ih =>
    rw [List.flatMap_append, List.length_append] at room
    have before := fun h mem => nonempty h (List.mem_append_left _ mem)
    refine List.pairwise_append.mpr ⟨ih (chained_append.mp chained).1 before (by omega),
      List.pairwise_singleton _ _, fun h mem k last => ?_⟩
    rw [List.mem_singleton.mp last]
    exact UInt64.le_of_lt (chained.first_lt before (by omega) h mem)

/-! ## Segments on a disk -/

/-- The closed segments on a disk, and the segment behind them. -/
structure Shelf (programID : Bytes) (start : Nat) (segs : List Segment) (files : Disk)
    (g : Segment) : Prop where
  files : List.Forall₂ (fun g e => e.1 = g.first ∧ e.2.data = g.whole ∧
    e.2.data.length ≤ e.2.synced) segs files
  sound : ∀ h ∈ segs, h.Sound programID
  chained : Chained start (segs ++ [g])
  count : g.records.length < 2 ^ 32
  records : ∀ r ∈ g.records, r.Sound programID
  room : start + (segs.flatMap Segment.records ++ g.records).length < 2 ^ 64

/-- The records are in the closed segments and in what is durable of the open one. -/
def Covers (segs : List Segment) (g : Segment) (f : File) (durable : List LogRecord) : Prop :=
  ∃ p, p <+: g.records ∧ durable <+: segs.flatMap Segment.records ++ p ∧
    (p = [] ∨ segmentHeaderSize + (frames p).length ≤ f.synced)

/-- A disk between two file operations: what is durable, and what may be on it. -/
inductive Stage (programID : Bytes) (start : Nat) (durable bound : List LogRecord) : Disk → Prop
  | closed {segs : List Segment} {files : Disk} {g : Segment}
      (shelf : Shelf programID start segs files g) (empty : g.records = [])
      (old : durable <+: segs.flatMap Segment.records)
      (new : segs.flatMap Segment.records <+: bound) : Stage programID start durable bound files
  | created {files : Disk} (id : UInt64) : Stage programID start durable bound
      (files ++ [(id, ({} : File))])
  | filling {segs : List Segment} {files : Disk} {g : Segment} {f : File}
      (shelf : Shelf programID start segs files g) (data : f.data = g.body) (open_ : ¬ f.Footed)
      (old : Covers segs g f durable)
      (new : segs.flatMap Segment.records ++ g.records <+: bound) :
      Stage programID start durable bound (files ++ [(g.first, f)])
  | footed {segs : List Segment} {files : Disk} {g : Segment} {f : File}
      (shelf : Shelf programID start segs files g) (nonempty : g.records ≠ [])
      (data : f.data = g.whole) (footed : f.Footed) (old : Covers segs g f durable)
      (new : segs.flatMap Segment.records ++ g.records <+: bound) :
      Stage programID start durable bound (files ++ [(g.first, f)])

structure Idle (programID : Bytes) (start : Nat) (durable : List LogRecord) (s : M1Storage)
    (segs : List Segment) (g : Segment) : Prop where
  shelf : Shelf programID start segs s.disk g
  empty : g.records = []
  file : s.file = none
  old : durable <+: segs.flatMap Segment.records

structure Filling (programID : Bytes) (start : Nat) (durable : List LogRecord) (s : M1Storage)
    (segs : List Segment) (files : Disk) (g : Segment) (f : File) : Prop where
  shelf : Shelf programID start segs files g
  file : s.file = some (g.info false)
  disk : s.disk = files ++ [(g.first, f)]
  data : f.data = g.body
  open_ : ¬ f.Footed
  old : Covers segs g f durable

/-- A storage between two calls or two records: what is durable, and what has been written. -/
inductive Kept (programID : Bytes) (start : Nat) (durable written : List LogRecord)
    (s : M1Storage) : Prop
  | idle {segs : List Segment} {g : Segment} (at_ : Idle programID start durable s segs g)
      (new : written = segs.flatMap Segment.records)
  | filling {segs : List Segment} {files : Disk} {g : Segment} {f : File}
      (at_ : Filling programID start durable s segs files g f)
      (new : written = segs.flatMap Segment.records ++ g.records)

variable {programID : Bytes} {start : Nat} {segs : List Segment} {files : Disk} {g : Segment}
  {f : File} {durable bound written : List LogRecord} {after : UInt64}

/-- The files of the closed segments as a directory. -/
theorem Shelf.leaves (shelf : Shelf programID start segs files g) (left : Disk.Leaves files image) :
    image = segs.map fun g => (g.first, g.whole) := by
  obtain ⟨shelved, -, -, -, -, -⟩ := shelf
  induction shelved generalizing image with
  | nil => cases left; rfl
  | cons first later ih =>
    cases left with
    | cons head tail =>
      obtain ⟨name, n, kept, eq⟩ := head
      obtain ⟨named, data, synced⟩ := first
      rw [List.map_cons, ih tail]
      refine congrArg (· :: _) (Prod.ext (name.trans named) ?_)
      rw [eq, List.take_of_length_le (by omega), data]

theorem Shelf.first_lt (shelf : Shelf programID start segs files g) :
    ∀ h ∈ segs, h.first < g.first := by
  have room := shelf.room
  rw [List.length_append] at room
  exact shelf.chained.first_lt (fun h mem => (shelf.sound h mem).nonempty) (by omega)

/-- The files of the closed segments have other names. -/
theorem Shelf.fresh (shelf : Shelf programID start segs files g) : ∀ e ∈ files, e.1 ≠ g.first := by
  intro e mem
  obtain ⟨i, less, rfl⟩ := List.mem_iff_getElem.mp mem
  have same := shelf.files.length_eq
  have named := (List.forall₂_iff_get.mp shelf.files).2 i (by omega) less
  have lt := shelf.first_lt _ (List.getElem_mem (show i < segs.length by omega))
  rw [List.get_eq_getElem, List.get_eq_getElem] at named
  rw [named.1]
  exact UInt64.ne_of_lt lt

/-- The segment behind the closed ones with its first records only. -/
theorem Shelf.cut (shelf : Shelf programID start segs files g) {before : List LogRecord}
    (sub : before <+: g.records) : Shelf programID start segs files ⟨g.first, before⟩ := by
  obtain ⟨behind, eq⟩ := sub
  obtain ⟨closed, first, numbered, -⟩ := chained_append.mp shelf.chained
  have count := shelf.count
  have room := shelf.room
  rw [← eq] at numbered
  rw [← eq, List.length_append] at count
  rw [← eq, List.length_append, List.length_append] at room
  exact
    { files := shelf.files
      sound := shelf.sound
      chained := chained_append.mpr ⟨closed, first, (numbered_append.mp numbered).1, trivial⟩
      count := by simp only; omega
      records := fun r mem => shelf.records r (by rw [← eq]; exact List.mem_append_left _ mem)
      room := by rw [List.length_append]; simp only; omega }

section Reading

variable (number : start = after.toNat + 1)
include number

theorem Shelf.scan_closed (shelf : Shelf programID start segs files g) :
    scanSegments after programID (segs.map fun g => (g.first, g.whole)) =
      .ok (({ expectedSeq := after + 1 } : Scan).behind segs) := by
  have room := shelf.room
  have chained := (chained_append.mp shelf.chained).1
  rw [List.length_append] at room
  have sorted := chained.pairwise (fun h mem => (shelf.sound h mem).nonempty) (by omega)
  have order : (segs.map fun g => (g.first, g.whole)).insertionSort (fun a b => a.1 ≤ b.1) =
      segs.map fun g => (g.first, g.whole) := by
    refine List.Pairwise.insertionSort_eq ?_
    exact List.pairwise_map.mpr sorted
  have read := @scanFiles_whole after programID { expectedSeq := after + 1 } _ _ shelf.sound chained
    (by simp [number]) []
  rw [List.append_nil] at read
  rw [scanSegments, order, read, scanFiles]

theorem Shelf.scan_open (shelf : Shelf programID start segs files g) (torn : TornFrame tail)
    (unclosed : ¬ EndsClosed (g.body ++ tail)) :
    scanSegments after programID
        ((segs.map fun g => (g.first, g.whole)) ++ [(g.first, g.body ++ tail)]) =
      .ok ((({ expectedSeq := after + 1 } : Scan).behind segs).opened g
        (if tail = [] then none else some g.body.length)) := by
  have room := shelf.room
  obtain ⟨chained, -, numbered, -⟩ := chained_append.mp shelf.chained
  rw [List.length_append] at room
  have sorted := chained.pairwise (fun h mem => (shelf.sound h mem).nonempty) (by omega)
  have order : ((segs.map fun g => (g.first, g.whole)) ++ [(g.first, g.body ++ tail)]).insertionSort
      (fun a b => a.1 ≤ b.1) =
        (segs.map fun g => (g.first, g.whole)) ++ [(g.first, g.body ++ tail)] := by
    refine List.Pairwise.insertionSort_eq (List.pairwise_append.mpr
      ⟨List.pairwise_map.mpr sorted, List.pairwise_singleton _ _, fun e mem last eq => ?_⟩)
    obtain ⟨h, listed, rfl⟩ := List.mem_map.mp mem
    rw [List.mem_singleton.mp eq]
    exact UInt64.le_of_lt (shelf.first_lt h listed)
  rw [scanSegments, order, scanFiles_whole shelf.sound chained (by simp [number]), scanFiles,
    List.isEmpty_nil, scanSegment_body shelf.records numbered (by simp [Scan.behind, number]) torn
      unclosed]
  rfl

end Reading

/-- The files of closed segments as they are found after a crash. -/
theorem Shelf.found (shelf : Shelf programID start segs files g) :
    Shelf programID start segs (Disk.found (segs.map fun g => (g.first, g.whole))) g :=
  { shelf with
    files := by
      rw [Disk.found, List.map_map, List.forall₂_map_right_iff]
      exact List.forall₂_same.mpr fun h _ => ⟨rfl, rfl, le_rfl⟩ }

/-- Behind a segment that is closed the next one is empty. -/
theorem Shelf.close (shelf : Shelf programID start segs files g) (nonempty : g.records ≠ [])
    (data : f.data = g.whole) (synced : f.data.length ≤ f.synced) :
    Shelf programID start (segs ++ [g]) (files ++ [(g.first, f)])
      ⟨UInt64.ofNat (start + ((segs ++ [g]).flatMap Segment.records).length), []⟩ where
  files := List.rel_append shelf.files (.cons ⟨rfl, data, synced⟩ .nil)
  sound := by
    intro h mem
    rcases List.mem_append.mp mem with mem | mem
    · exact shelf.sound h mem
    · rw [List.mem_singleton.mp mem]
      exact ⟨nonempty, shelf.count, shelf.records⟩
  chained := chained_append.mpr ⟨shelf.chained, rfl, trivial, trivial⟩
  count := by simp
  records := by simp
  room := by simpa using shelf.room

/-- A log whose segments are all closed is opened. -/
theorem Shelf.reopen_closed (number : start = after.toNat + 1)
    (shelf : Shelf programID start segs files g) (empty : g.records = []) (segmentRecords : Int) :
    ∃ s, openM1Storage segmentRecords after programID (segs.map fun g => (g.first, g.whole)) =
        .ok (s, segs.flatMap Segment.records) ∧
      Kept programID start (segs.flatMap Segment.records) (segs.flatMap Segment.records) s := by
  have found := shelf.found
  have last : ∀ m ∈ (segs.map (·.info true)).getLast?, m.closed = true := by
    intro m mem
    obtain ⟨h, -, rfl⟩ := List.mem_map.mp (List.mem_of_getLast? mem)
    rfl
  rw [openM1Storage, shelf.scan_closed number]
  simp only [Scan.behind, List.nil_append]
  split
  · exact ⟨_, rfl, .idle ⟨found, empty, rfl, List.prefix_rfl⟩ rfl⟩
  · rename_i m eq
    rw [if_pos (last m eq)]
    exact ⟨_, rfl, .idle ⟨found, empty, rfl, List.prefix_rfl⟩ rfl⟩

theorem Disk.change_last {id : UInt64} {files : Disk} (fresh : ∀ e ∈ files, e.1 ≠ id) (f : File)
    (k : File → File) : Disk.change id k (files ++ [(id, f)]) = files ++ [(id, k f)] := by
  have same : (files.map fun e => if e.1 = id then (e.1, k e.2) else e) = files :=
    (List.map_congr_left fun e mem => if_neg (fresh e mem)).trans (List.map_id files)
  rw [Disk.change, List.map_append, same]
  simp

/-- A log with an open segment is opened, and what is behind its records is cut off. -/
theorem Shelf.reopen_open (number : start = after.toNat + 1)
    (shelf : Shelf programID start segs files g) (torn : TornFrame tail)
    (unclosed : ¬ EndsClosed (g.body ++ tail)) (segmentRecords : Int) :
    ∃ s, openM1Storage segmentRecords after programID
        ((segs.map fun g => (g.first, g.whole)) ++ [(g.first, g.body ++ tail)]) =
        .ok (s, segs.flatMap Segment.records ++ g.records) ∧
      Kept programID start (segs.flatMap Segment.records ++ g.records)
        (segs.flatMap Segment.records ++ g.records) s := by
  have found := shelf.found
  have cut : ∀ k : File → File, (Disk.found ((segs.map fun g => (g.first, g.whole)) ++
      [(g.first, g.body ++ tail)])).change g.first k =
        Disk.found (segs.map fun g => (g.first, g.whole)) ++
          [(g.first, k { data := g.body ++ tail, synced := (g.body ++ tail).length })] := by
    intro k
    rw [Disk.found, List.map_append]
    exact Disk.change_last found.fresh _ k
  have whole : Covers segs g { data := g.body, synced := g.body.length }
      (segs.flatMap Segment.records ++ g.records) :=
    ⟨g.records, List.prefix_rfl, List.prefix_rfl, .inr g.length_body.ge⟩
  have unfooted : ¬ m1EndMagic <+: [] := by decide
  rw [openM1Storage, shelf.scan_open number torn unclosed]
  simp only [Scan.opened, Scan.behind, List.nil_append, List.getLast?_append,
    List.getLast?_singleton,
    Option.some_or, Segment.info, Bool.false_eq_true, if_false, cut]
  refine ⟨_, rfl, .filling (f := { data := g.body, synced := g.body.length })
    ⟨found, rfl, ?_, rfl, unfooted, whole⟩ rfl⟩
  by_cases empty : tail = []
  · simp [empty]
  · simp [empty]

/-- A segment cut behind its header, and before it could have the length of a frame behind its
records. -/
theorem Shelf.take_body (shelf : Shelf programID start segs files g) {rest : Bytes}
    (header : segmentHeaderSize ≤ n) (short : rest = [] ∨ n < g.body.length + 4) :
    ∃ before tail, before <+: g.records ∧
      (g.body ++ rest).take n = (⟨g.first, before⟩ : Segment).body ++ tail ∧ TornFrame tail ∧
      ∀ p, p <+: g.records → segmentHeaderSize + (frames p).length ≤ n → p <+: before := by
  by_cases inside : n ≤ g.body.length
  · obtain ⟨before, behind, tail, eq, cut, torn, covers⟩ :=
      take_frames shelf.records (n - segmentHeaderSize)
    refine ⟨before, tail, ⟨behind, eq.symm⟩, ?_, torn, fun p sub room => covers p sub (by omega)⟩
    rw [List.take_append_of_le_length inside, Segment.body, List.take_append,
      List.take_of_length_le (by simp [header]), length_encodeSegmentHeader, cut, Segment.body,
      List.append_assoc]
  · refine ⟨g.records, rest.take (n - g.body.length), List.prefix_rfl, ?_, .inl ?_,
      fun p sub _ => sub⟩
    · rw [List.take_append, List.take_of_length_le (by omega)]
    · rw [List.length_take]
      rcases short with rfl | short
      · simp
      · omega

/-- What is left of a file has the durable records. -/
theorem Covers.prefix_cut {before : List LogRecord} (covers : Covers segs g f durable)
    (synced : f.synced ≤ n)
    (whole : ∀ p, p <+: g.records → segmentHeaderSize + (frames p).length ≤ n → p <+: before) :
    durable <+: segs.flatMap Segment.records ++ before := by
  obtain ⟨p, sub, old, empty | room⟩ := covers
  · rw [empty, List.append_nil] at old
    exact old.trans (List.prefix_append _ _)
  · exact old.trans ((List.prefix_append_right_inj _).mpr (whole p sub (by omega)))

/-- What is left of the last file. -/
theorem Disk.leaves_concat {files : Disk} {id : UInt64} {f : File}
    (left : Disk.Leaves (files ++ [(id, f)]) image)
    (legible : Disk.Legible (files ++ [(id, f)]) image) :
    ∃ before n, image = before ++ [(id, f.data.take n)] ∧ files.Leaves before ∧ f.synced ≤ n ∧
      f.Legible (f.data.take n) := by
  induction files generalizing image with
  | nil =>
    obtain ⟨_, _, ⟨name, n, synced, rest⟩, last, rfl⟩ := List.forall₂_cons_left_iff.mp left
    cases last
    obtain ⟨told, -⟩ := List.forall₂_cons.mp legible
    rw [rest] at told
    exact ⟨[], n, congrArg ([·]) (Prod.ext name rest), .nil, synced, told⟩
  | cons e files ih =>
    obtain ⟨i, image, first, later, rfl⟩ := List.forall₂_cons_left_iff.mp left
    obtain ⟨before, n, rfl, rest, synced, told⟩ := ih later (List.forall₂_cons.mp legible).2
    exact ⟨i :: before, n, rfl, .cons first rest, synced, told⟩

/-- The log is read and opened with the records `out`. -/
structure Recovers (programID : Bytes) (start : Nat) (after : UInt64)
    (image : List (UInt64 × Bytes)) (out : List LogRecord) : Prop where
  scan : ∃ scan, scanSegments after programID image = .ok scan ∧ scan.out = out
  reopen : ∀ segmentRecords, ∃ s,
    openM1Storage segmentRecords after programID image = .ok (s, out) ∧
    Kept programID start out out s

section

variable (number : start = after.toNat + 1)
include number

theorem Shelf.recovers_closed
    (shelf : Shelf programID start segs files g) (empty : g.records = []) :
    Recovers programID start after (segs.map fun g => (g.first, g.whole))
      (segs.flatMap Segment.records) where
  scan := ⟨_, shelf.scan_closed number, by simp [Scan.behind]⟩
  reopen := shelf.reopen_closed number empty

theorem Shelf.recovers_open
    (shelf : Shelf programID start segs files g) (torn : TornFrame tail)
    (unclosed : ¬ EndsClosed (g.body ++ tail)) :
    Recovers programID start after
      ((segs.map fun g => (g.first, g.whole)) ++ [(g.first, g.body ++ tail)])
      (segs.flatMap Segment.records ++ g.records) where
  scan := ⟨_, shelf.scan_open number torn unclosed, by simp [Scan.opened, Scan.behind]⟩
  reopen := shelf.reopen_open number torn unclosed

/-- What is left of a segment that is not closed is read back. -/
theorem Shelf.recovers_cut
    (shelf : Shelf programID start segs files g) (old : Covers segs g f durable)
    (new : segs.flatMap Segment.records ++ g.records <+: bound) {rest : Bytes}
    (synced : f.synced ≤ n) (header : segmentHeaderSize ≤ n)
    (short : rest = [] ∨ n < g.body.length + 4)
    (unclosed : ¬ EndsClosed ((g.body ++ rest).take n)) :
    ∃ out, durable <+: out ∧ out <+: bound ∧ Recovers programID start after
      ((segs.map fun g => (g.first, g.whole)) ++ [(g.first, (g.body ++ rest).take n)]) out := by
  obtain ⟨records, tail, sub, cut, torn, covers⟩ := shelf.take_body header short
  rw [cut] at unclosed ⊢
  exact ⟨_, old.prefix_cut synced covers, ((List.prefix_append_right_inj _).mpr sub).trans new,
    (shelf.cut sub).recovers_open number torn unclosed⟩

/-- What a crash leaves of a disk is read back, unless it cannot be told from damage. -/
theorem Stage.recovers {d : Disk}
    (stage : Stage programID start durable bound d) (left : d.Leaves image)
    (legible : d.Legible image) :
    ∃ out, durable <+: out ∧ out <+: bound ∧ Recovers programID start after image out := by
  cases stage with
  | @closed segs files g shelf empty old new =>
    rw [shelf.leaves left]
    exact ⟨_, old, new, shelf.recovers_closed number empty⟩
  | created id =>
    obtain ⟨_, n, -, -, -, told⟩ := Disk.leaves_concat left legible
    have header := told.header
    simp [segmentHeaderSize] at header
  | @filling segs files g f shelf data open_ old new =>
    obtain ⟨_, n, rfl, before, synced, told⟩ := Disk.leaves_concat left legible
    have header := told.header
    have unclosed : ¬ EndsClosed (f.data.take n) := fun closed => g.not_endsClosed_body (by
      rwa [told.record closed, data] at closed)
    rw [List.length_take] at header
    rw [data, ← List.append_nil g.body] at unclosed ⊢
    rw [shelf.leaves before]
    exact shelf.recovers_cut number old new synced (by omega) (.inl rfl) unclosed
  | @footed segs files g f shelf nonempty data footed old new =>
    obtain ⟨_, n, rfl, before, synced, told⟩ := Disk.leaves_concat left legible
    have header := told.header
    have length : f.data.length = g.body.length + segmentFooterSize := by
      rw [data, Segment.whole, List.length_append, length_encodeSegmentFooter]
    rw [shelf.leaves before]
    by_cases whole : f.data.take n = f.data
    · have closed := (shelf.close (f := ⟨g.whole, g.whole.length, []⟩) nonempty rfl
        le_rfl).recovers_closed number rfl
      rw [List.map_append, List.flatMap_append, List.flatMap_singleton,
        List.map_singleton] at closed
      rw [whole, data]
      exact ⟨_, old.prefix_cut synced fun p sub _ => sub, new, closed⟩
    · have short := (told.footer footed).resolve_left whole
      have unclosed := mt told.record whole
      rw [List.length_take] at header short
      rw [segmentFooterSize] at short length
      rw [data, Segment.whole] at unclosed ⊢
      exact shelf.recovers_cut number old new synced (by omega) (.inr (by omega)) unclosed

end

/-! ## Writing -/

/-- The call has gone from one storage to the other, and all the disks on the way have a
property. -/
def Passes (P : Disk → Prop) (s t : M1Storage) : Prop :=
  ∃ ds, t.trail = s.trail ++ ds ∧ ∀ d ∈ ds, P d

theorem Passes.refl (s : M1Storage) : Passes P s s := ⟨[], by simp, by simp⟩

theorem Passes.trans {s t u : M1Storage} (first : Passes P s t) (later : Passes P t u) :
    Passes P s u := by
  obtain ⟨ds, eq, all⟩ := first
  obtain ⟨es, eq', all'⟩ := later
  refine ⟨ds ++ es, by rw [eq', eq, List.append_assoc], fun d mem => ?_⟩
  exact (List.mem_append.mp mem).elim (all d) (all' d)

theorem Passes.act {s : M1Storage} {operation : Disk → Disk} (holds : P (operation s.disk)) :
    Passes P s (s.act operation) :=
  ⟨[operation s.disk], rfl, by simpa using holds⟩

/-- The state of a file that a footer has been written to. -/
theorem footed_footer (last : UInt64) (records : Nat) :
    m1EndMagic <+: encodeSegmentFooter last records := by
  rw [encodeSegmentFooter, List.append_assoc]
  exact List.prefix_append _ _

theorem not_footed_header (id first : UInt64) : ¬ m1EndMagic <+: encodeSegmentHeader id first := by
  intro sub
  have eq := List.prefix_iff_eq_take.mp sub
  have magic := (header_fields id first []).1
  rw [List.append_nil] at magic
  rw [show m1EndMagic.length = 8 by decide, magic] at eq
  exact absurd eq (by decide)

/-- The length at the front of a frame is no letter. -/
theorem not_footed_framed {programID : Bytes} (sound : r.Sound programID) :
    ¬ m1EndMagic <+: r.framed := by
  rintro ⟨t, eq⟩
  have fits := sound.fits
  have letters : uint32BE (m1EndMagic ++ t) = 0x4F435445 := by
    rw [uint32BE, List.take_append_of_le_length (by decide)]
    decide
  rw [eq, LogRecord.framed, uint32BE_putUint32BE] at letters
  have value := congrArg UInt32.toNat letters
  rw [sound.length_word] at value
  rw [value] at fits
  exact absurd fits (by decide)

section Writing

variable {s : M1Storage}

theorem Idle.stage (idle : Idle programID start durable s segs g)
    (new : segs.flatMap Segment.records <+: bound) : Stage programID start durable bound s.disk :=
  .closed idle.shelf idle.empty idle.old new

theorem Filling.stage (filling : Filling programID start durable s segs files g f)
    (new : segs.flatMap Segment.records ++ g.records <+: bound) :
    Stage programID start durable bound s.disk := by
  rw [filling.disk]
  exact .filling filling.shelf filling.data filling.open_ filling.old new

theorem Kept.stage (kept : Kept programID start durable written s) (new : written <+: bound) :
    Stage programID start durable bound s.disk := by
  cases kept with
  | idle idle eq => exact idle.stage (eq ▸ new)
  | filling filling eq => exact filling.stage (eq ▸ new)

theorem Idle.ensure (idle : Idle programID start durable s segs g)
    (new : segs.flatMap Segment.records <+: bound) : ∃ t f,
      s.ensureSegment g.first = .ok (t, g.info false) ∧
      Filling programID start durable t segs s.disk g f ∧ t.segmentRecords = s.segmentRecords ∧
      Passes (Stage programID start durable bound) s t := by
  have free : (s.disk.any fun e => e.1 = g.first) = false := by
    simpa using fun a b mem => idle.shelf.fresh (a, b) mem
  have info : g.info false = { id := g.first, first := g.first } := by
    simp [Segment.info, Segment.last, idle.empty]
  have disk : Disk.write g.first (encodeSegmentHeader g.first g.first)
      (Disk.create g.first s.disk) = s.disk ++ [(g.first,
        { data := encodeSegmentHeader g.first g.first
          tail := encodeSegmentHeader g.first g.first })] :=
    Disk.change_last idle.shelf.fresh _ _
  have filling : Filling programID start durable
      { (s.act (Disk.create g.first)).act
          (Disk.write g.first (encodeSegmentHeader g.first g.first)) with
        file := some (g.info false) } segs s.disk g
      { data := encodeSegmentHeader g.first g.first
        tail := encodeSegmentHeader g.first g.first } :=
    { shelf := idle.shelf
      file := rfl
      disk := disk
      data := by simp [Segment.body, idle.empty]
      open_ := not_footed_header _ _
      old := ⟨[], List.nil_prefix, by simpa using idle.old, .inl rfl⟩ }
  have after : Stage programID start durable bound _ :=
    filling.stage (by simpa [idle.empty] using new)
  refine ⟨_, _, ?_, filling, rfl, ?_⟩
  · simp [M1Storage.ensureSegment, idle.file, free, info]
  · exact (Passes.act (.created g.first)).trans (Passes.act after)

theorem Filling.close (filling : Filling programID start durable s segs files g f)
    (nonempty : g.records ≠ []) (new : segs.flatMap Segment.records ++ g.records <+: bound) :
    Idle programID start durable (s.closeSegment true) (segs ++ [g])
        ⟨UInt64.ofNat (start + ((segs ++ [g]).flatMap Segment.records).length), []⟩ ∧
      (s.closeSegment true).segmentRecords = s.segmentRecords ∧
      Passes (Stage programID start durable bound) s (s.closeSegment true) := by
  let footer := encodeSegmentFooter g.last g.records.length
  have written : Disk.write g.first footer s.disk =
      files ++ [(g.first, { f with data := g.whole, tail := footer })] := by
    rw [filling.disk, Segment.whole, ← filling.data]
    exact Disk.change_last filling.shelf.fresh _ _
  have synced : Disk.sync g.first (Disk.write g.first footer s.disk) =
      files ++ [(g.first, { data := g.whole, synced := g.whole.length, tail := footer })] := by
    rw [written]
    exact Disk.change_last filling.shelf.fresh _ _
  have closed : s.closeSegment true =
      { (s.act (Disk.write g.first footer)).act (Disk.sync g.first) with file := none } := by
    simp [M1Storage.closeSegment, filling.file, Segment.info, footer]
  obtain ⟨p, sub, old, -⟩ := filling.old
  have idle : Idle programID start durable (s.closeSegment true) (segs ++ [g])
      ⟨UInt64.ofNat (start + ((segs ++ [g]).flatMap Segment.records).length), []⟩ := by
    rw [closed]
    refine ⟨?_, rfl, rfl, ?_⟩
    · simp only [M1Storage.act, synced]
      exact filling.shelf.close nonempty rfl le_rfl
    · rw [List.flatMap_append, List.flatMap_singleton]
      exact old.trans ((List.prefix_append_right_inj _).mpr sub)
  have footed : Stage programID start durable bound (Disk.write g.first footer s.disk) := by
    rw [written]
    exact .footed filling.shelf nonempty rfl (footed_footer _ _) filling.old new
  have after : Stage programID start durable bound
      (Disk.sync g.first (Disk.write g.first footer s.disk)) := by
    have stage : Stage programID start durable bound _ := idle.stage (by
      rwa [List.flatMap_append, List.flatMap_singleton])
    rwa [closed] at stage
  rw [closed] at idle ⊢
  exact ⟨idle, rfl, (Passes.act footed).trans (Passes.act after)⟩

theorem Filling.write (filling : Filling programID start durable s segs files g f)
    (sound : r.Sound programID) (count : g.records.length + 1 < 2 ^ 32) (number : r.sequence =
      UInt64.ofNat (start + (segs.flatMap Segment.records ++ g.records).length))
    (room : start + (segs.flatMap Segment.records ++ g.records).length + 1 < 2 ^ 64) :
    Filling programID start durable (s.writeRecord (g.info false) r r.framed) segs files
      ⟨g.first, g.records ++ [r]⟩ { f with data := f.data ++ r.framed, tail := r.framed } where
  shelf := by
    obtain ⟨closed, first, numbered, -⟩ := chained_append.mp filling.shelf.chained
    have shelf := filling.shelf
    refine ⟨shelf.files, shelf.sound, chained_append.mpr ⟨closed, first, ?_, trivial⟩, ?_, ?_, ?_⟩
    · refine numbered_append.mpr ⟨numbered, ?_, trivial⟩
      rw [number, List.length_append, Nat.add_assoc]
    · simpa using count
    · intro t mem
      rcases List.mem_append.mp mem with mem | mem
      · exact shelf.records t mem
      · rw [List.mem_singleton.mp mem]
        exact sound
    · simpa [Nat.add_assoc] using room
  file := by simp [M1Storage.writeRecord, Segment.info, Segment.last]
  disk := by
    simp only [M1Storage.writeRecord, M1Storage.act, filling.disk]
    exact Disk.change_last filling.shelf.fresh _ _
  data := by simp [filling.data, Segment.body]
  open_ := not_footed_framed sound
  old := by
    obtain ⟨p, sub, old, synced⟩ := filling.old
    exact ⟨p, sub.trans (List.prefix_append _ _), old, synced⟩

/-- A segment has at least one record and fewer than its footer can count. -/
def M1Storage.Usable (s : M1Storage) : Prop := 0 < s.segmentRecords ∧ s.segmentRecords < 2 ^ 32

/-- What appending a record comes to. -/
structure Appended (programID : Bytes) (start : Nat) (durable written bound : List LogRecord)
    (s t : M1Storage) : Prop where
  kept : Kept programID start durable written t
  file : t.file.isSome
  limit : t.segmentRecords = s.segmentRecords
  passes : Passes (Stage programID start durable bound) s t

/-- The open segment has room for a record. -/
theorem Filling.appended (filling : Filling programID start durable s segs files g f)
    (sound : r.Sound programID) (usable : s.Usable) (few : g.records.length < s.segmentRecords)
    (number : r.sequence =
      UInt64.ofNat (start + (segs.flatMap Segment.records ++ g.records).length))
    (room : start + (segs.flatMap Segment.records ++ g.records).length + 1 < 2 ^ 64)
    (new : segs.flatMap Segment.records ++ g.records ++ [r] <+: bound) :
    Appended programID start durable (segs.flatMap Segment.records ++ g.records ++ [r]) bound s
      (s.writeRecord (g.info false) r r.framed) := by
  have after := filling.write sound (by have := usable.2; omega) number room
  have stage : Stage programID start durable bound _ :=
    after.stage (by rwa [← List.append_assoc])
  exact ⟨.filling after (List.append_assoc _ _ _), rfl, rfl, Passes.act stage⟩

/-- A record is the first one of a segment that is created for it. -/
theorem Idle.appended (idle : Idle programID start durable s segs g) (sound : r.Sound programID)
    (usable : s.Usable)
    (number : r.sequence = UInt64.ofNat (start + (segs.flatMap Segment.records).length))
    (room : start + (segs.flatMap Segment.records).length + 1 < 2 ^ 64)
    (new : segs.flatMap Segment.records ++ [r] <+: bound) :
    ∃ t, s.ensureSegment r.sequence = .ok (t, g.info false) ∧
      (g.info false).records < t.segmentRecords ∧
      Appended programID start durable (segs.flatMap Segment.records ++ [r]) bound s
        (t.writeRecord (g.info false) r r.framed) := by
  have first : r.sequence = g.first := by
    rw [number]
    exact (chained_append.mp idle.shelf.chained).2.1.symm
  obtain ⟨t, f, created, filling, limit, passes⟩ :=
    idle.ensure ((List.prefix_append _ [r]).trans new)
  have usable' : t.Usable := by rwa [M1Storage.Usable, limit]
  have same : segs.flatMap Segment.records ++ g.records = segs.flatMap Segment.records := by
    rw [idle.empty, List.append_nil]
  have few : g.records.length < t.segmentRecords := by
    rw [idle.empty]
    exact usable'.1
  rw [← same] at number room new ⊢
  obtain ⟨kept, file, limit', more⟩ := filling.appended sound usable' few number room new
  rw [first]
  exact ⟨t, created, few, kept, file, limit'.trans limit, passes.trans more⟩

theorem appendRecord_of_room {t : M1Storage} {m : SegmentMeta} (sound : r.Sound programID)
    (present : s.ensureSegment r.sequence = .ok (t, m)) (few : m.records < t.segmentRecords) :
    s.appendRecord r = .ok (t.writeRecord m r r.framed) := by
  have framed : r.frame = .ok r.framed := if_neg (by have := sound.fits; omega)
  simp [M1Storage.appendRecord, present, Except.mapError, bind, Except.bind, Nat.not_le.mpr few,
    framed]

theorem appendRecord_of_full {t u : M1Storage} {m k : SegmentMeta} (sound : r.Sound programID)
    (present : s.ensureSegment r.sequence = .ok (t, m)) (full : t.segmentRecords ≤ m.records)
    (created : (t.closeSegment true).ensureSegment r.sequence = .ok (u, k)) :
    s.appendRecord r = .ok (u.writeRecord k r r.framed) := by
  have framed : r.frame = .ok r.framed := if_neg (by have := sound.fits; omega)
  simp [M1Storage.appendRecord, present, Except.mapError, bind, Except.bind, full, created, framed]

theorem Kept.appendRecord (kept : Kept programID start durable written s)
    (sound : r.Sound programID) (usable : s.Usable)
    (number : r.sequence = UInt64.ofNat (start + written.length))
    (room : start + written.length + 1 < 2 ^ 64) (new : written ++ [r] <+: bound) :
    ∃ t, s.appendRecord r = .ok t ∧
      Appended programID start durable (written ++ [r]) bound s t := by
  cases kept with
  | @idle segs g idle eq =>
    subst eq
    obtain ⟨t, created, few, appended⟩ := idle.appended sound usable number room new
    exact ⟨_, appendRecord_of_room sound created few, appended⟩
  | @filling segs files g f filling eq =>
    subst eq
    have present : s.ensureSegment r.sequence = .ok (s, g.info false) := by
      simp [M1Storage.ensureSegment, filling.file]
    by_cases few : g.records.length < s.segmentRecords
    · exact ⟨_, appendRecord_of_room sound present few,
        filling.appended sound usable few number room new⟩
    · -- The open segment is full: it is closed, and the record is the first one of the next.
      have nonempty : g.records ≠ [] := by
        intro empty
        rw [empty] at few
        exact few usable.1
      have all : (segs ++ [g]).flatMap Segment.records =
          segs.flatMap Segment.records ++ g.records := by
        rw [List.flatMap_append, List.flatMap_singleton]
      obtain ⟨idle, limit, passes⟩ :=
        filling.close nonempty ((List.prefix_append _ [r]).trans new)
      rw [← all] at number room new ⊢
      have usable' : (s.closeSegment true).Usable := by rwa [M1Storage.Usable, limit]
      obtain ⟨t, created, -, kept, file, limit', more⟩ :=
        idle.appended sound usable' number room new
      exact ⟨_, appendRecord_of_full sound present (Nat.not_lt.mp few) created, kept, file,
        limit'.trans limit, passes.trans more⟩

theorem Kept.appendRecords (kept : Kept programID start durable written s) {rs : List LogRecord}
    (sound : ∀ r ∈ rs, r.Sound programID) (usable : s.Usable)
    (numbered : Numbered (start + written.length) rs)
    (room : start + (written ++ rs).length < 2 ^ 64) (new : written ++ rs <+: bound)
    (some : rs ≠ [] ∨ s.file.isSome) :
    ∃ t, rs.foldlM M1Storage.appendRecord s = .ok t ∧
      Appended programID start durable (written ++ rs) bound s t := by
  induction rs generalizing s written with
  | nil =>
    rw [List.append_nil]
    exact ⟨s, rfl, kept, by simpa using some, rfl, Passes.refl s⟩
  | cons r rs ih =>
    obtain ⟨first, later⟩ := numbered
    rw [List.append_cons] at room new ⊢
    obtain ⟨t, done, kept, file, limit, passes⟩ := kept.appendRecord (sound r List.mem_cons_self)
      usable first (by simp only [List.length_append, List.length_singleton] at room; omega)
      ((List.prefix_append _ rs).trans new)
    obtain ⟨u, rest, kept, file, limit', more⟩ := ih kept
      (fun r mem => sound r (List.mem_cons_of_mem _ mem)) (by rwa [M1Storage.Usable, limit])
      (by rwa [List.length_append, List.length_singleton, ← Nat.add_assoc]) room new (.inr file)
    refine ⟨u, ?_, kept, file, limit'.trans limit, passes.trans more⟩
    rw [List.foldlM_cons, done]
    exact rest

theorem Filling.sync (filling : Filling programID start durable s segs files g f)
    (new : bound <+: segs.flatMap Segment.records ++ g.records) :
    Filling programID start bound (s.act (Disk.sync g.first)) segs files g
      { f with synced := f.data.length } where
  shelf := filling.shelf
  file := filling.file
  disk := by
    simp only [M1Storage.act, filling.disk]
    exact Disk.change_last filling.shelf.fresh _ _
  data := filling.data
  open_ := filling.open_
  old := ⟨g.records, List.prefix_rfl, new, .inr (by rw [filling.data, g.length_body])⟩

/-- What a call comes to: all that has been written is durable, and the disks on the way have at
least what was durable before it. -/
structure Called (programID : Bytes) (start : Nat) (durable bound : List LogRecord)
    (s t : M1Storage) : Prop where
  kept : Kept programID start bound bound t
  limit : t.segmentRecords = s.segmentRecords
  trail : ∀ d ∈ s.disk :: t.trail, Stage programID start durable bound d

theorem Kept.appendGroup (kept : Kept programID start written written s) {rs : List LogRecord}
    (sound : ∀ r ∈ rs, r.Sound programID) (usable : s.Usable)
    (numbered : Numbered (start + written.length) rs)
    (room : start + (written ++ rs).length < 2 ^ 64) (some : rs ≠ [] ∨ s.file.isSome) :
    ∃ t, s.appendGroup rs = .ok t ∧ Called programID start written (written ++ rs) s t := by
  have stage := kept.stage (List.prefix_append written rs)
  have begun : Kept programID start written written { s with trail := [] } := by
    cases kept with
    | idle idle eq => exact .idle ⟨idle.shelf, idle.empty, idle.file, idle.old⟩ eq
    | filling filling eq =>
      exact .filling ⟨filling.shelf, filling.file, filling.disk, filling.data, filling.open_,
        filling.old⟩ eq
  obtain ⟨t, done, appended⟩ := begun.appendRecords sound usable numbered room List.prefix_rfl some
  obtain ⟨ds, trail, passes⟩ := appended.passes
  rw [List.nil_append] at trail
  have file := appended.file
  cases appended.kept with
  | idle idle eq => simp [idle.file] at file
  | @filling segs files g f filling eq =>
    refine ⟨t.act (Disk.sync g.first), ?_, .filling (filling.sync (eq ▸ List.prefix_rfl)) eq,
      appended.limit, ?_⟩
    · rw [M1Storage.appendGroup, done]
      simp [bind, Except.bind, filling.file, Segment.info]
    · intro d mem
      rw [M1Storage.act, trail] at mem
      rcases List.mem_cons.mp mem with rfl | mem
      · exact stage
      rcases List.mem_append.mp mem with mem | mem
      · exact passes d mem
      · rw [List.mem_singleton.mp mem]
        exact (filling.sync (eq ▸ List.prefix_append written rs)).stage (eq ▸ List.prefix_rfl)

/-- The open segment is closed, unless it has no record. -/
theorem Kept.closeSegment (kept : Kept programID start written written s)
    (some : ∀ m ∈ s.file, m.records ≠ 0) :
    Called programID start written written s
      (M1Storage.closeSegment { s with trail := [] } true) := by
  have stage := kept.stage (List.prefix_refl written)
  cases kept with
  | idle idle eq =>
    have none : M1Storage.closeSegment { s with trail := [] } true = { s with trail := [] } := by
      simp [M1Storage.closeSegment, idle.file]
    rw [none]
    refine ⟨.idle ⟨idle.shelf, idle.empty, idle.file, idle.old⟩ eq, rfl, fun d mem => ?_⟩
    rw [List.mem_singleton.mp mem]
    exact stage
  | @filling segs files g f filling eq =>
    have nonempty : g.records ≠ [] := by
      have count := some _ filling.file
      simpa [Segment.info] using count
    have begun : Filling programID start written { s with trail := [] } segs files g f :=
      ⟨filling.shelf, filling.file, filling.disk, filling.data, filling.open_, filling.old⟩
    have whole : segs.flatMap Segment.records ++ g.records <+: written := eq ▸ List.prefix_rfl
    obtain ⟨idle, limit, ds, trail, passes⟩ := begun.close nonempty whole
    rw [List.nil_append] at trail
    refine ⟨.idle idle ?_, limit, fun d mem => ?_⟩
    · rw [eq, List.flatMap_append, List.flatMap_singleton]
    · rw [trail] at mem
      rcases List.mem_cons.mp mem with rfl | mem
      · exact stage
      · exact passes d mem

end Writing

/-! ## Runs -/

/-- The group goes on with the numbers of the records of the log. -/
structure Group (programID : Bytes) (after : UInt64) (s : M1Storage)
    (all records : List LogRecord) :
    Prop where
  sound : ∀ r ∈ records, r.Sound programID
  numbered : Numbered (after.toNat + 1 + all.length) records
  room : after.toNat + 1 + (all ++ records).length < 2 ^ 64
  some : records ≠ [] ∨ s.file.isSome

/-- A call that returns, with the records of the log behind it. No segment is closed without a
record in it. -/
inductive Call (programID : Bytes) (after : UInt64) (s : M1Storage) (all : List LogRecord) :
    M1Storage → List LogRecord → Prop
  | append {records : List LogRecord} {t : M1Storage} (group : Group programID after s all records)
      (done : s.appendGroup records = .ok t) : Call programID after s all t (all ++ records)
  | close (some : ∀ m ∈ s.file, m.records ≠ 0) :
      Call programID after s all (M1Storage.closeSegment { s with trail := [] } true) all

/-- A storage and the records of its log, after calls and after crashes during calls that leave
files which can be told from damage. -/
inductive Logged (programID : Bytes) (after : UInt64) : M1Storage → List LogRecord → Prop
  | created {segmentRecords : Int} {s : M1Storage} {out : List LogRecord}
      (room : after.toNat + 1 < 2 ^ 64) (small : segmentRecords < 2 ^ 32)
      (opened : openM1Storage segmentRecords after programID [] = .ok (s, out)) :
      Logged programID after s out
  | returned {s t : M1Storage} {all bound : List LogRecord} (before : Logged programID after s all)
      (call : Call programID after s all t bound) : Logged programID after t bound
  | crashed {segmentRecords : Int} {s t u : M1Storage} {all bound out : List LogRecord} {d : Disk}
      {image : List (UInt64 × Bytes)} (before : Logged programID after s all)
      (call : Call programID after s all t bound) (behind : d ∈ s.disk :: t.trail)
      (left : d.Leaves image) (legible : d.Legible image) (small : segmentRecords < 2 ^ 32)
      (opened : openM1Storage segmentRecords after programID image = .ok (u, out)) :
      Logged programID after u out

section Runs

variable {programID : Bytes} {after : UInt64} {s t : M1Storage} {all bound : List LogRecord}

theorem openM1Storage_usable {segmentRecords : Int} (small : segmentRecords < 2 ^ 32)
    (opened : openM1Storage segmentRecords after programID image = .ok (s, all)) : s.Usable := by
  have limit : s.segmentRecords = if segmentRecords ≤ 0 then 4096 else segmentRecords.toNat := by
    simp only [openM1Storage] at opened
    generalize (if segmentRecords ≤ 0 then 4096 else segmentRecords.toNat) = limit at opened ⊢
    split at opened
    · cases opened
    · split at opened
      · cases opened; rfl
      · split at opened <;> cases opened <;> rfl
  rw [M1Storage.Usable, limit]
  split <;> omega

theorem Call.called (call : Call programID after s all t bound) (usable : s.Usable)
    (kept : Kept programID (after.toNat + 1) all all s) :
    Called programID (after.toNat + 1) all bound s t := by
  cases call with
  | append group done =>
    obtain ⟨u, eq, called⟩ :=
      kept.appendGroup group.sound usable group.numbered group.room group.some
    cases done.symm.trans eq
    exact called
  | close some => exact kept.closeSegment some

/-- Between two calls all records of the log are durable. -/
theorem Logged.kept (run : Logged programID after s all) :
    Kept programID (after.toNat + 1) all all s ∧ s.Usable := by
  induction run with
  | created room small opened =>
    refine ⟨?_, openM1Storage_usable small opened⟩
    have shelf : Shelf programID (after.toNat + 1) [] [] ⟨UInt64.ofNat (after.toNat + 1), []⟩ :=
      ⟨.nil, by simp, ⟨rfl, trivial, trivial⟩, by simp, by simp, by simpa using room⟩
    obtain ⟨u, eq, kept⟩ := shelf.reopen_closed rfl rfl _
    cases opened.symm.trans eq
    exact kept
  | returned before call ih =>
    obtain ⟨kept, usable⟩ := ih
    have called := call.called usable kept
    exact ⟨called.kept, by rwa [M1Storage.Usable, called.limit]⟩
  | crashed before call behind left legible small opened ih =>
    obtain ⟨kept, usable⟩ := ih
    have stage := (call.called usable kept).trail _ behind
    obtain ⟨out, -, -, recovers⟩ := stage.recovers rfl left legible
    obtain ⟨u, eq, kept⟩ := recovers.reopen _
    refine ⟨?_, openM1Storage_usable small opened⟩
    cases opened.symm.trans eq
    exact kept

/-- Whatever calls and crashes came before, the next group is appended, and a crash behind any
file operation of a call leaves the records that were durable before it and some of those the call
has appended, all of them once it has returned. -/
theorem segments_recovered (run : Logged programID after s all) :
    (∀ records, Group programID after s all records → ∃ t, s.appendGroup records = .ok t) ∧
    ∀ t bound, Call programID after s all t bound →
      (∀ d ∈ s.disk :: t.trail, ∀ image, d.Leaves image → d.Legible image →
        ∃ out, all <+: out ∧ out <+: bound ∧
          (∃ scan, scanSegments after programID image = .ok scan ∧ scan.out = out) ∧
          ∀ segmentRecords, ∃ u,
            openM1Storage segmentRecords after programID image = .ok (u, out)) ∧
      ∀ image, t.disk.Leaves image → t.disk.Legible image →
        ∃ scan, scanSegments after programID image = .ok scan ∧ scan.out = bound := by
  obtain ⟨kept, usable⟩ := run.kept
  refine ⟨fun records group => ?_, fun t bound call => ?_⟩
  · obtain ⟨t, done, -⟩ :=
      kept.appendGroup group.sound usable group.numbered group.room group.some
    exact ⟨t, done⟩
  have called := call.called usable kept
  constructor
  · intro d mem image left legible
    obtain ⟨out, old, new, recovers⟩ := (called.trail d mem).recovers rfl left legible
    refine ⟨out, old, new, recovers.scan, fun segmentRecords => ?_⟩
    obtain ⟨u, opened, -⟩ := recovers.reopen segmentRecords
    exact ⟨u, opened⟩
  · intro image left legible
    have stage := called.kept.stage (List.prefix_refl _)
    obtain ⟨out, old, new, recovers⟩ := stage.recovers rfl left legible
    obtain rfl := old.eq_of_length_le new.length_le
    exact recovers.scan

end Runs

def createdRecord (sequence : UInt64) : LogRecord :=
  decisionRecord
    { version := 3, schemaID := m1SchemaID, programID := m1GoProgramID, sequence := sequence }
    { id := ascii "c", kind := .create, account := sequence, amount := 10 } ⟨{}, false, {}, false⟩
    { accepted := true, effect := 1, balanceA := 10 } 1 []

/-- The disk behind an operation of a call. -/
theorem exists_of_trail {call : Except String M1Storage} {k : Nat} {d : Disk}
    (at_ : call.toOption.bind (·.trail[k]?) = some d) : ∃ t, call = .ok t ∧ d ∈ t.trail := by
  obtain ⟨t, done, mem⟩ := Option.bind_eq_some_iff.mp at_
  exact ⟨t, toOption_eq_some.mp done, List.mem_of_getElem? mem⟩

/-- The first of two segments, with its footer. -/
def rotatedFile : File where
  data := (⟨1, [createdRecord 1]⟩ : Segment).whole
  synced := (⟨1, [createdRecord 1]⟩ : Segment).whole.length
  tail := encodeSegmentFooter 1 1

/-- The second of them, whose record is not durable yet. -/
def tornFile : File where
  data := (⟨2, [createdRecord 2]⟩ : Segment).body
  tail := (createdRecord 2).framed

set_option maxRecDepth 20000 in
/-- Two accounts are created in a log with a record a segment. A crash that tears the second record
leaves a log that is read. -/
theorem torn_second_segment_recovered : ∃ s t d torn,
    openM1Storage 1 0 m1GoProgramID [] = .ok (s, []) ∧
      s.appendGroup [createdRecord 1, createdRecord 2] = .ok t ∧
      d ∈ t.trail ∧ d.Leaves torn ∧ d.Legible torn ∧ ∃ out,
        out <+: [createdRecord 1, createdRecord 2] ∧
        ∃ scan, scanSegments 0 m1GoProgramID torn = .ok scan ∧ scan.out = out := by
  have sound : ∀ r ∈ [createdRecord 1, createdRecord 2], r.Sound m1GoProgramID := by
    intro r mem
    rcases (by simpa using mem : r = createdRecord 1 ∨ r = createdRecord 2) with rfl | rfl <;>
      exact ⟨⟨by decide, by decide, by decide, rfl⟩, rfl, rfl, rfl, by decide +kernel⟩
  have group : Group m1GoProgramID 0 { segmentRecords := 1 } []
      [createdRecord 1, createdRecord 2] :=
    ⟨sound, ⟨rfl, rfl, trivial⟩, by decide, .inl (by simp)⟩
  obtain ⟨t, done, behind⟩ := @exists_of_trail
    (({ segmentRecords := 1 } : M1Storage).appendGroup [createdRecord 1, createdRecord 2]) 7
    [(1, rotatedFile), (2, tornFile)] (by decide +kernel)
  have left : Disk.Leaves [(1, rotatedFile), (2, tornFile)]
      [(1, rotatedFile.data), (2, tornFile.data.take 300)] :=
    .cons ⟨rfl, _, le_rfl, List.take_length.symm⟩ (.cons ⟨rfl, 300, Nat.zero_le _, rfl⟩ .nil)
  have legible : Disk.Legible [(1, rotatedFile), (2, tornFile)]
      [(1, rotatedFile.data), (2, tornFile.data.take 300)] :=
    .cons ⟨by decide +kernel, fun _ => .inl rfl, fun _ => rfl⟩
      (.cons ⟨by decide +kernel,
        fun footed => absurd footed (not_footed_framed (sound (createdRecord 2) (by simp))),
        fun ends => absurd ends (by decide +kernel)⟩ .nil)
  obtain ⟨during, -⟩ := (segments_recovered
    (.created (by decide) (show (1 : Int) < 2 ^ 32 by decide) rfl)).2 t _ (.append group done)
  obtain ⟨out, -, some, scan, -⟩ := during _ (.tail _ behind) _ left legible
  exact ⟨_, t, _, _, rfl, done, behind, left, legible, out, some, scan⟩

set_option maxRecDepth 20000 in
/-- A crash behind the creation of the first segment leaves an empty file, and one during the
rotation to the second segment half a footer: neither log can be read. -/
theorem crash_in_rotation :
    (∃ s t d image, openM1Storage 4096 0 m1GoProgramID [] = .ok (s, []) ∧
      s.appendGroup [createdRecord 1] = .ok t ∧ d ∈ t.trail ∧ d.Leaves image ∧
      scanSegments 0 m1GoProgramID image =
        .error (.message "invalid segment header segment-00000000000000000001.wal")) ∧
    ∃ s t d image, openM1Storage 1 0 m1GoProgramID [] = .ok (s, []) ∧
      s.appendGroup [createdRecord 1, createdRecord 2] = .ok t ∧ d ∈ t.trail ∧ d.Leaves image ∧
      scanSegments 0 m1GoProgramID image = .error (.message
        "invalid record length in segment-00000000000000000001.wal at 370") := by
  constructor
  · obtain ⟨t, done, behind⟩ := @exists_of_trail
      (({ segmentRecords := 4096 } : M1Storage).appendGroup [createdRecord 1]) 0 [(1, {})]
      (by decide +kernel)
    refine ⟨_, t, _, [(1, [])], rfl, done, behind, ?_, by decide +kernel⟩
    exact .cons ⟨rfl, 0, le_rfl, rfl⟩ .nil
  · obtain ⟨t, done, behind⟩ := @exists_of_trail
      (({ segmentRecords := 1 } : M1Storage).appendGroup [createdRecord 1, createdRecord 2]) 3
      [(1, { data := (⟨1, [createdRecord 1]⟩ : Segment).whole, tail := encodeSegmentFooter 1 1 })]
      (by decide +kernel)
    refine ⟨_, t, _, [(1, (⟨1, [createdRecord 1]⟩ : Segment).whole.take 382)],
      rfl, done, behind, ?_,
      by decide +kernel⟩
    exact .cons ⟨rfl, 382, Nat.zero_le _, rfl⟩ .nil

end OctetDB.Research
