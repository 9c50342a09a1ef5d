import OctetDB.Accounts.Chronicle

/-!
# Answers to repeated commands

Every command of a batch has an answer: the result of its decision, or the original result,
marked as a repetition, if its ID was decided within the window or earlier in the batch. The
retained results are those of the last decisions, over batches, snapshots and recoveries.
-/

namespace OctetDB.Accounts

/-! ## The answers of a batch -/

/-- The answer to a command behind others of its batch. -/
inductive Core.Reply (e : Core) (records : List WalRecord) (before : List Command) (c : Command) :
    Option Result → Prop
  | retained {prior : Result} (found : e.retained.results[c.id]? = some prior) :
    Reply e records before c (some { prior with duplicate := true })
  | seen {r : WalRecord} (unretained : c.id ∉ e.retained.results)
    (earlier : c.id ∈ (e.executed before).map (·.id)) (mem : r ∈ records)
    (same : r.commandID = c.id) : Reply e records before c
      (some { r.result with duplicate := true })
  | new {r : WalRecord} (unretained : c.id ∉ e.retained.results)
    (unseen : c.id ∉ (e.executed before).map (·.id))
    (found : records[(e.executed before).length]? = some r) (same : r.commandID = c.id) :
    Reply e records before c (some r.result)

theorem Core.Reply.append {e : Core} {records more : List WalRecord} {before : List Command}
    {c : Command} {answer : Option Result} (reply : e.Reply records before c answer) :
    e.Reply (records ++ more) before c answer := by
  cases reply with
  | retained found => exact .retained found
  | seen unretained earlier mem same =>
    exact .seen unretained earlier (List.mem_append_left _ mem) same
  | new unretained unseen found same =>
    have inside := (List.getElem?_eq_some_iff.mp found).1
    exact .new unretained unseen (by rwa [List.getElem?_append_left inside]) same

structure Replies (e : Core) (before : List Command) (s : BatchState) : Prop where
  decides : Decides e before s
  places : ∀ (id : Bytes) (i : Nat), s.batchIDs[id]? = some i →
    ∃ r ∈ s.records, r.commandID = id ∧ s.results[i]? = some r.result
  replies : ∀ xs c ys, before = xs ++ c :: ys → e.Reply s.records xs c s.results[xs.length]?

namespace Replies

variable {e : Core} {before : List Command} {s : BatchState} {c : Command}

theorem concat (h : Replies e before s) (more : List WalRecord) {r : Result}
    (reply : e.Reply (s.records ++ more) before c (some r)) (xs : List Command) (d : Command)
    (ys : List Command) (split : before ++ [c] = xs ++ d :: ys) :
    e.Reply (s.records ++ more) xs d (s.results ++ [r])[xs.length]? := by
  have length := h.decides.length
  rcases List.eq_nil_or_concat ys with rfl | ⟨ys, last, rfl⟩
  · obtain ⟨rfl, rfl⟩ : before = xs ∧ c = d := by simpa using split
    rwa [← length, List.getElem?_concat_length]
  · have split' : before ++ [c] = (xs ++ d :: ys) ++ [last] := by simpa using split
    obtain ⟨rfl, -⟩ := List.append_inj' split' rfl
    have inside : xs.length < s.results.length := by rw [length]; simp
    rw [List.getElem?_append_left inside]
    exact (h.replies xs d ys rfl).append

/-- A repetition is answered and changes nothing else. -/
theorem repeats (h : Replies e before s) {r : Result} (reply : e.Reply s.records before c (some r))
    (decides : Decides e (before ++ [c]) { s with results := s.results ++ [r] }) :
    Replies e (before ++ [c]) { s with results := s.results ++ [r] } := by
  refine ⟨decides, fun id i found => ?_, ?_⟩
  · obtain ⟨q, mem, same, place⟩ := h.places id i found
    have inside := (List.getElem?_eq_some_iff.mp place).1
    exact ⟨q, mem, same, by rwa [List.getElem?_append_left inside]⟩
  · have replies := h.concat [] (by rwa [List.append_nil])
    rwa [List.append_nil] at replies

theorem decide (h : Replies e before s) (decides : Decides e (before ++ [c]) (s.decide c))
    (unretained : c.id ∉ e.retained.results) (unseen : c.id ∉ (e.executed before).map (·.id)) :
    Replies e (before ++ [c]) (s.decide c) := by
  have id : (s.record c).commandID = c.id := rfl
  have size : s.records.length = (e.executed before).length := by
    rw [h.decides.records, Decisions.batch, Decisions.length_run]
  refine ⟨decides, fun k i found => ?_, ?_⟩
  · rw [s.decide_eq] at found ⊢
    rw [Std.ExtTreeMap.getElem?_insert] at found
    split at found
    · rename_i same
      obtain rfl := Option.some.inj found
      exact ⟨s.record c, by simp, by simpa [id] using same, by simp⟩
    · obtain ⟨q, mem, same, place⟩ := h.places k i found
      have inside := (List.getElem?_eq_some_iff.mp place).1
      exact ⟨q, List.mem_append_left _ mem, same, by rwa [List.getElem?_append_left inside]⟩
  · rw [s.decide_eq]
    exact h.concat _ (.new unretained unseen (by rw [← size, List.getElem?_concat_length]) id)

theorem step (h : Replies e before s) (epoch : e.epoch ≠ 0) (valid : c.Valid) :
    Replies e (before ++ [c]) (s.step c) := by
  have decides := h.decides.step epoch valid
  unfold BatchState.step at decides ⊢
  rw [h.decides.retained] at decides ⊢
  cases retained : e.retained.results[c.id]? with
  | some prior =>
    simp only [retained] at decides
    exact h.repeats (.retained retained) decides
  | none =>
    simp only [retained] at decides
    have unretained : c.id ∉ e.retained.results := by
      rw [Std.ExtTreeMap.mem_iff_isSome_getElem?, retained]
      simp
    cases seen : s.batchIDs[c.id]? with
    | some i =>
      simp only [seen] at decides
      have earlier : c.id ∈ (e.executed before).map (·.id) := by
        rw [← h.decides.batchIDs, Std.ExtTreeMap.mem_iff_isSome_getElem?, seen]
        rfl
      obtain ⟨q, mem, same, place⟩ := h.places c.id i seen
      have answer : s.results.getD i {} = q.result := by
        rw [List.getD_eq_getElem?_getD, place]
        rfl
      refine h.repeats ?_ decides
      rw [answer]
      exact .seen unretained earlier mem same
    | none =>
      simp only [seen] at decides
      refine h.decide decides unretained ?_
      rw [← h.decides.batchIDs, Std.ExtTreeMap.mem_iff_isSome_getElem?, seen]
      simp

end Replies

/-- The answers of a batch of valid commands. -/
theorem Core.replies_decideBatch {e : Core} (below : e.MarksBelow) {commands : List Command}
    (valid : ∀ c ∈ commands, c.Valid) {before after : List Command} {c : Command}
    (split : commands = before ++ c :: after) :
    e.Reply (e.decideBatch commands).records before c
      (e.decideBatch commands).results[before.length]? := by
  obtain ⟨epoch, marks, unmarked⟩ := below.nextEpoch
  have replies : Replies e.nextEpoch commands (e.decideBatch commands) := by
    refine foldl_induction (P := Replies e.nextEpoch) ?_ ?_
    · refine ⟨.start (.start marks unmarked) (Staging.staged_eq_book unmarked), by simp, ?_⟩
      intro xs c ys none
      simp at none
    · intro before c after split replies
      exact replies.step epoch (valid c (by simp [split]))
  have reply := replies.replies before c after split
  have retained : e.nextEpoch.retained = e.retained := by rw [nextEpoch_fields]
  generalize (e.decideBatch commands).results[before.length]? = answer at reply ⊢
  cases reply with
  | retained found => exact .retained (retained ▸ found)
  | seen unretained earlier mem same =>
    rw [executed_nextEpoch] at earlier
    exact .seen (retained ▸ unretained) earlier mem same
  | new unretained unseen found same =>
    rw [executed_nextEpoch] at unseen found
    exact .new (retained ▸ unretained) unseen found same

/-! ## Retained results -/

/-- The window holds the results of the last of some decisions. -/
abbrev Holds (horizon : Nat) (bank : Bank) (done : List WalRecord) : Prop :=
  Window.Saw horizon bank.window (done.map fun r => (r.commandID, r.result))

theorem Bank.Extends.holds {horizon : Nat} (pos : 0 < horizon) {bank : Bank}
    {rs done : List WalRecord} (following : bank.Extends horizon rs)
    (holds : Holds horizon bank done) :
    Holds horizon (rs.foldl (Bank.apply horizon) bank) (done ++ rs) := by
  induction rs generalizing bank done with
  | nil => simpa using holds
  | cons r rs ih =>
    obtain ⟨follows, rest⟩ := following
    have retained := Window.Saw.retain (v := r.result) holds follows.fresh pos
    have more : Holds horizon (bank.apply horizon r) (done ++ [r]) := by
      simpa [Holds, Bank.apply] using retained
    simpa using ih rest more

/-! ## Runs without storage failures -/

def Operation.Faultless : Operation → Prop
  | .submit _ fault => fault = none
  | .snapshot fault => fault = none
  | .close => True

/-- The numbers of the operation fit: the sequence does not wrap in a batch, and the counts of a
snapshot fit their fields. -/
def Operation.Fits (s : Session) : Operation → Prop
  | .submit commands _ => s.core.sequence.toNat + commands.length < 2 ^ 64
  | .snapshot _ => s.core.Encodable
  | .close => True

/-- What a snapshot leaves. On a closed engine it fails when the log is truncated. -/
theorem Session.snapshot_none (s : Session) {file : WalFile}
    (wal : s.core.wal = some file) :
    (s.snapshot none).1.files.snapshot = some s.core.encodeSnapshot ∧
      (s.snapshot none).1.core = { s.core with
        wal := if s.core.closed then s.core.wal else some ⟨walHeader, walHeader.length⟩ } := by
  have durable : s.core.wal.isNone = false := by rw [wal]; rfl
  unfold Session.snapshot Core.snapshotFault
  simp only [durable, Bool.false_eq_true, if_false]
  cases closed : s.core.closed with
  | true => exact ⟨rfl, by simp [← closed]; rfl⟩
  | false =>
    obtain ⟨core, snapshot⟩ := Session.snapshot_whole wal
    exact ⟨snapshot, core.trans (by simp [closed])⟩

/-- The engine retains the results of the last decisions, and its directory leads to an engine
that does so as well. A batch that was too large for a frame leaves agents and slots in a poisoned
engine that are not those of the directory. -/
structure Session.Remembers (cfg : CoreConfig) (s : Session) (done : List WalRecord) : Prop where
  marks : s.core.MarksBelow
  bounds : s.core.bounds = cfg.bounds
  sound : s.core.bank.Sound cfg.bounds.dedupeWindow
  holds : Holds cfg.bounds.dedupeWindow s.core.bank done
  count : s.core.sequence.toNat = done.length
  numbered : ∀ i r, done[i]? = some r → r.sequence.toNat = i + 1
  kept : ∃ live base batches, Kept cfg ⟨live, s.files⟩ base batches ∧ live.wal = s.core.wal ∧
    live.bank.window = s.core.bank.window ∧ live.sequence = s.core.sequence ∧
    (s.core.poisoned = none → s.core = live)

namespace Session.Remembers

variable {cfg : CoreConfig} {s : Session} {done : List WalRecord}

theorem of_kept {base : Bank} {batches : List (List WalRecord)} (kept : Kept cfg s base batches)
    (holds : Holds cfg.bounds.dedupeWindow s.core.bank done)
    (count : s.core.sequence.toNat = done.length)
    (numbered : ∀ i r, done[i]? = some r → r.sequence.toNat = i + 1) : s.Remembers cfg done :=
  ⟨kept.marks, kept.bounds, kept.sound, holds, count, numbered, s.core, base, batches, kept, rfl,
    rfl, rfl, fun _ => rfl⟩

theorem created (durable : cfg.Durable) {unused : Bytes} {e : Core}
    (opens : openCore cfg {} unused = .ok e) : Session.Remembers cfg ⟨e, {}⟩ [] := by
  obtain ⟨bank, kept⟩ := Kept.opened durable (reads_none _) (.empty _ _) (.inl ⟨rfl, rfl⟩)
    (.empty _) rfl opens
  have sequence : e.sequence = 0 := congrArg Bank.sequence bank
  refine .of_kept kept ?_ ?_ (by simp)
  · change Holds _ e.bank []
    rw [bank]
    exact .empty _
  · change e.sequence.toNat = 0
    rw [sequence, UInt64.toNat_zero]

theorem answered (h : s.Remembers cfg done) {commands : List Command}
    (fits : s.core.sequence.toNat + commands.length < 2 ^ 64) {results : List Result}
    (ok : (s.core.submitBatch commands none).2 = .ok results) :
    (s.run (.submit commands none)).Remembers cfg
      (done ++ (s.core.decideBatch commands).records) := by
  obtain ⟨live, base, batches, kept, -, -, -, same⟩ := h.kept
  obtain rfl := same (Core.opened_of_ok ok).2
  have leaves := Core.answered h.marks ok
  have following := Core.extends_decideBatch h.marks leaves.valid
  have length := Core.length_records_le h.marks leaves.valid
  have room : s.core.bank.sequence.toNat + (s.core.decideBatch commands).records.length < 2 ^ 64 :=
    Nat.lt_of_le_of_lt (Nat.add_le_add_left length _) fits
  have bank := leaves.bank
  rw [h.bounds] at bank following
  have next : ∃ base batches, Kept cfg (s.run (.submit commands none)) base batches := by
    rcases kept.submit fits none with ⟨kept', -⟩ | ⟨-, -, rs, kept'⟩ | ⟨⟨err, error⟩, -⟩
    · exact ⟨_, _, kept'⟩
    · exact ⟨_, _, kept'⟩
    · rw [ok] at error
      cases error
  obtain ⟨_, _, kept'⟩ := next
  refine .of_kept kept' ?_ ?_ ?_
  · change Holds _ (s.core.submitBatch commands none).1.bank _
    rw [bank]
    exact following.holds cfg.bounds.window_pos h.holds
  · change (s.core.submitBatch commands none).1.bank.sequence.toNat = _
    rw [bank, following.count room, List.length_append, ← h.count]
    rfl
  · intro i r found
    by_cases old : i < done.length
    · rw [List.getElem?_append_left old] at found
      exact h.numbered i r found
    · rw [List.getElem?_append_right (not_lt.mp old)] at found
      have number := following.numbered room found
      have count : s.core.bank.sequence.toNat = done.length := h.count
      omega

/-- A batch that fails without a storage failure was too large: nothing of it is in the log. -/
theorem failed (h : s.Remembers cfg done) {commands : List Command}
    (fits : s.core.sequence.toNat + commands.length < 2 ^ 64) {err : RuntimeError}
    (error : (s.core.submitBatch commands none).2 = .error err) :
    (s.run (.submit commands none)).Remembers cfg done := by
  rcases Core.unanswered h.marks error with
    unchanged | ⟨poisoned, sane, valid, book, agree, bank, bounds⟩
  · rw [Session.run, unchanged]
    exact h
  obtain ⟨live, base, batches, kept, -, -, -, same⟩ := h.kept
  obtain rfl := same sane
  have wal : (s.core.submitBatch commands none).1.wal = s.core.wal := by
    rcases kept.submit fits none with ⟨kept', -⟩ | ⟨-, ⟨results, ok⟩, -⟩ | ⟨-, -, same, -⟩
    · exact absurd kept'.sane poisoned
    · rw [ok] at error
      cases error
    · exact same rfl
  have sound : (s.core.submitBatch commands none).1.bank.Sound cfg.bounds.dedupeWindow := by
    obtain ⟨ids, ledgerNamed, ledgerOrder, ledgerLe, consistent, results, resultsOrder⟩ := h.sound
    rw [bank]
    refine ⟨fun id entry found => ?_, ledgerNamed, ledgerOrder, ledgerLe, consistent, results,
      resultsOrder⟩
    have shown := congrArg Account.id (agree.account id)
    rw [show book.entry id = entry by rw [Book.entry, show book id = some entry from found]; rfl]
      at shown
    rw [← shown, Book.entry]
    cases known : s.core.book id with
    | none => rfl
    | some old => exact ids id old known
  refine ⟨h.marks.submitBatch commands none, bounds.trans h.bounds, sound, ?_, ?_, h.numbered,
    s.core, base, batches, kept, wal.symm, ?_, ?_, fun clean => absurd clean poisoned⟩
  · change Holds _ (s.core.submitBatch commands none).1.bank _
    rw [bank]
    exact h.holds
  · exact (congrArg (fun b => b.sequence.toNat) bank).trans h.count
  · exact (congrArg Bank.window bank).symm
  · exact (congrArg Bank.sequence bank).symm

/-- A snapshot leads to the bank of the engine, also of a poisoned one. On a closed engine it
fails when the log is truncated. -/
theorem snapshot (h : s.Remembers cfg done) (fits : s.core.Encodable) :
    (s.run (.snapshot none)).Remembers cfg done := by
  obtain ⟨live, base, batches, kept, wal, -, sequence, -⟩ := h.kept
  have file : s.core.wal = some ⟨walBytes batches, (walBytes batches).length⟩ :=
    wal.symm.trans kept.wal
  have reads : Reads cfg.bounds (some s.core.encodeSnapshot) s.core.bank := by
    have sound := h.sound
    rw [← h.bounds] at sound ⊢
    exact Core.reads_encodeSnapshot sound fits
  obtain ⟨snapshot, core⟩ := s.snapshot_none file
  obtain ⟨after, left, log⟩ : ∃ after, (s.run (.snapshot none)).core.wal =
      some ⟨walBytes after, (walBytes after).length⟩ ∧
        Log cfg.bounds.dedupeWindow s.core.bank after s.core.bank := by
    rw [Session.run, core]
    by_cases closed : s.core.closed = true
    · have within : ∀ r ∈ batches.flatten, r.sequence ≤ s.core.sequence :=
        fun r mem => sequence ▸ kept.log.within r mem
      exact ⟨batches, by simp [closed, file], kept.log.loggable,
        ⟨batches.flatten, [], by simp, within, by simp, trivial, rfl⟩, within, UInt64.le_refl _⟩
    · exact ⟨[], by simp [closed, walBytes], .empty _ _⟩
  have core : (s.run (.snapshot none)).core = _ := core
  have bank : (s.run (.snapshot none)).core.bank = s.core.bank := by rw [core]; rfl
  let clean : Core := { (s.run (.snapshot none)).core with poisoned := none }
  have kept' : Kept cfg ⟨clean, (s.run (.snapshot none)).files⟩ s.core.bank after := by
    constructor
    · exact (congrArg Core.bounds core).trans h.bounds
    · rfl
    · change (s.run (.snapshot none)).core.MarksBelow
      rw [core]
      exact h.marks
    · exact bank ▸ h.sound
    · exact snapshot ▸ reads
    · exact bank ▸ log
    · exact left
  refine ⟨?_, (congrArg Core.bounds core).trans h.bounds, bank ▸ h.sound, bank ▸ h.holds, ?_,
    h.numbered, clean, _, _, kept', rfl, rfl, rfl, fun sane => ?_⟩
  · rw [core]; exact h.marks
  · rw [core]; exact h.count
  · simp only [clean, ← sane]

theorem closed (h : s.Remembers cfg done) : (s.run .close).Remembers cfg done := by
  obtain ⟨live, base, batches, kept, wal, window, sequence, same⟩ := h.kept
  obtain ⟨bounds, sane, marks, sound, reads, log, file⟩ := kept
  exact ⟨h.marks, h.bounds, h.sound, h.holds, h.count, h.numbered, live.close, base, batches,
    ⟨bounds, sane, marks, sound, reads, log, file⟩, wal, window, sequence,
    fun clean => congrArg Core.close (same clean)⟩

theorem reopened (h : s.Remembers cfg done) (durable : cfg.Durable) {unused : Bytes} {e : Core}
    (opens : openCore cfg s.directory unused = .ok e) :
    e.sequence = s.core.sequence ∧ Session.Remembers cfg ⟨e, s.files⟩ done := by
  obtain ⟨live, base, batches, kept, wal, window, sequence, -⟩ := h.kept
  have file : s.core.wal = some ⟨walBytes batches, (walBytes batches).length⟩ :=
    wal.symm.trans kept.wal
  have data : s.directory.wal = some (walBytes batches) := by simp [Session.directory, file]
  have snapshot : s.directory.snapshot = s.files.snapshot := by simp [Session.directory, file]
  have logFile : LogFile s.directory.wal batches :=
    .inr ⟨[], .inl rfl, by rw [data, List.append_nil]⟩
  obtain ⟨bank, kept'⟩ := Kept.opened durable (snapshot ▸ kept.reads) kept.log logFile kept.sound
    snapshot.symm opens
  have same : e.sequence = s.core.sequence := (congrArg Bank.sequence bank).trans sequence
  refine ⟨same, .of_kept kept' ?_ ?_ h.numbered⟩
  · change Window.Saw _ e.bank.window _
    rw [bank, window]
    exact h.holds
  · change e.sequence.toNat = _
    rw [same, h.count]

end Session.Remembers

theorem Recorded.remembers {cfg : CoreConfig} (durable : cfg.Durable) {s : Session}
    {done doubt : List WalRecord}
    (recorded : Recorded cfg (fun s op => op.Faultless ∧ op.Fits s) s done doubt) :
    s.Remembers cfg done := by
  induction recorded with
  | created opens => exact .created durable opens
  | answered _ allows ok ih =>
    obtain ⟨rfl, fits⟩ := allows
    exact ih.answered fits ok
  | refused _ allows error _ ih =>
    obtain ⟨rfl, fits⟩ := allows
    exact ih.failed fits error
  | failed _ allows error _ ih =>
    obtain ⟨rfl, fits⟩ := allows
    exact ih.failed fits error
  | snapshot _ allows ih =>
    obtain ⟨rfl, fits⟩ := allows
    exact ih.snapshot fits
  | closed _ _ ih => exact ih.closed
  | reopened _ _ opens ih =>
    obtain ⟨same, remembers⟩ := ih.reopened durable opens
    rwa [if_pos same]

/-! ## Exactly once within the window -/

/-- The command repeats one of the recent decisions, or a command that is executed in its batch. -/
def Command.Repeats (c : Command) (recent : List WalRecord) (executed : List Command) : Prop :=
  c.id ∈ recent.map (·.commandID) ∨ c.id ∈ executed.map (·.id)

namespace Session.Remembers

variable {cfg : CoreConfig} {s : Session} {done : List WalRecord}

theorem order_eq (h : s.Remembers cfg done) :
    s.core.retained.order.drop s.core.retained.orderHead =
      (done.rtake cfg.bounds.dedupeWindow).map (·.commandID) := by
  have ids := h.holds.ids
  rw [List.map_map, ← Window.map_rtake] at ids
  exact ids

theorem mem_results (h : s.Remembers cfg done) (id : Bytes) :
    id ∈ s.core.retained.results ↔ id ∈ (done.rtake cfg.bounds.dedupeWindow).map (·.commandID) := by
  rw [← h.order_eq]
  exact h.holds.mem_iff id

theorem result_of_recent (h : s.Remembers cfg done) {r : WalRecord}
    (mem : r ∈ done.rtake cfg.bounds.dedupeWindow) :
    s.core.retained.results[r.commandID]? = some r.result := by
  refine h.holds.values (r.commandID, r.result) ?_
  rw [← Window.map_rtake]
  exact List.mem_map_of_mem (f := fun r : WalRecord => (r.commandID, r.result)) mem

theorem executed_of_repeats (h : s.Remembers cfg done) {before : List Command} {c : Command} :
    s.core.executed (before ++ [c]) =
      if c.id ∈ (done.rtake cfg.bounds.dedupeWindow).map (·.commandID) ∨
          c.id ∈ (s.core.executed before).map (·.id) then s.core.executed before
      else s.core.executed before ++ [c] := by
  rw [Core.executed_concat]
  simp only [h.mem_results]

end Session.Remembers

/-- In every run without a storage failure whose numbers fit, the retained results are those of
the last decisions, each ID once. A command whose ID is among them, or was executed earlier in its
batch, is answered with the original result as a repetition, and has no record; every other
command is executed and gets the next sequence. -/
theorem answered_once_in_window (cfg : CoreConfig) (durable : cfg.Durable) (s : Session)
    (done doubt : List WalRecord)
    (recorded : Recorded cfg (fun s op => op.Faultless ∧ op.Fits s) s done doubt) :
    let recent := done.rtake cfg.bounds.dedupeWindow
    let order := s.core.retained.order.drop s.core.retained.orderHead
    (order = recent.map (·.commandID) ∧ order.Nodup ∧
      (∀ id, id ∈ s.core.retained.results ↔ id ∈ order) ∧
      (∀ r ∈ recent, s.core.retained.results[r.commandID]? = some r.result) ∧
      ∀ i r, done[i]? = some r → r.sequence.toNat = i + 1) ∧
    ∀ commands results, (Operation.submit commands none).Fits s →
      (s.core.submitBatch commands none).2 = .ok results →
      let records := (s.core.decideBatch commands).records
      records.map (·.commandID) = (s.core.executed commands).map (·.id) ∧
      ∀ before c after, commands = before ++ c :: after →
        (c.Repeats recent (s.core.executed before) →
          s.core.executed (before ++ [c]) = s.core.executed before ∧
          ∃ q ∈ recent ++ records, q.commandID = c.id ∧
            results[before.length]? = some { q.result with duplicate := true }) ∧
        (¬ c.Repeats recent (s.core.executed before) →
          s.core.executed (before ++ [c]) = s.core.executed before ++ [c] ∧
          ∃ q, records[(s.core.executed before).length]? = some q ∧ q.commandID = c.id ∧
            q.sequence.toNat = done.length + (s.core.executed before).length + 1 ∧
            results[before.length]? = some q.result) := by
  intro recent order
  have h := recorded.remembers durable
  refine ⟨⟨h.order_eq, h.holds.nodup, h.holds.mem_iff, fun r mem => h.result_of_recent mem,
    h.numbered⟩, fun commands results fits ok => ?_⟩
  have leaves := Core.answered h.marks ok
  have decided := Core.records_decideBatch h.marks leaves.valid
  refine ⟨?_, fun before c after split => ?_⟩
  · rw [decided]
    exact Decisions.map_run _ _ _ _ fun _ _ _ => rfl
  have reply := Core.replies_decideBatch h.marks leaves.valid split
  rw [← leaves.results_eq] at reply
  refine ⟨fun repeats => ⟨?_, ?_⟩, fun new => ⟨?_, ?_⟩⟩
  · exact h.executed_of_repeats.trans (if_pos repeats)
  · generalize results[before.length]? = answer at reply ⊢
    cases reply with
    | retained found =>
      have known := Std.ExtTreeMap.mem_iff_isSome_getElem?.mpr (by rw [found]; rfl)
      obtain ⟨q, mem, same⟩ := List.mem_map.mp ((h.mem_results c.id).mp known)
      have value := h.result_of_recent mem
      rw [same, found, Option.some.injEq] at value
      exact ⟨q, List.mem_append_left _ mem, same, by rw [value]⟩
    | seen unretained earlier mem same => exact ⟨_, List.mem_append_right _ mem, same, rfl⟩
    | new unretained unseen =>
      rw [h.mem_results] at unretained
      exact absurd repeats (not_or.mpr ⟨unretained, unseen⟩)
  · exact h.executed_of_repeats.trans (if_neg new)
  · obtain ⟨old, seen⟩ := not_or.mp new
    generalize results[before.length]? = answer at reply ⊢
    cases reply with
    | retained found =>
      have known := Std.ExtTreeMap.mem_iff_isSome_getElem?.mpr (by rw [found]; rfl)
      exact absurd ((h.mem_results c.id).mp known) old
    | seen unretained earlier => exact absurd earlier seen
    | @new r unretained unseen found same =>
      have following := Core.extends_decideBatch h.marks leaves.valid
      have length := Core.length_records_le h.marks leaves.valid
      have number :=
        following.numbered (Nat.lt_of_le_of_lt (Nat.add_le_add_left length _) fits) found
      exact ⟨r, found, same, by rw [number, ← h.count]; rfl, rfl⟩

set_option maxRecDepth 20000 in
/-- A command that is submitted again in a later batch. -/
theorem created_again :
    let again : Command := { id := [97], kind := .deposit, account := 2, amount := 1 }
    ∃ results, (twoAccounts.core.submitBatch [again] none).2 = .ok results ∧
      ∃ q ∈ createdTwo.rtake 100000 ++ (twoAccounts.core.decideBatch [again]).records,
        q.commandID = [97] ∧ results[0]? = some { q.result with duplicate := true } := by
  intro again
  have recorded : Recorded {} (fun s op => op.Faultless ∧ op.Fits s) twoAccounts createdTwo [] :=
    recorded_twoAccounts fun commands two => ⟨rfl, by
      change 0 + commands.length < 2 ^ 64
      omega⟩
  have answers : (twoAccounts.core.submitBatch [again] none).2.toOption.isSome := by decide +kernel
  obtain ⟨results, found⟩ := Option.isSome_iff_exists.mp answers
  have ok := toOption_eq_some.mp found
  have fits : (Operation.submit [again] none).Fits twoAccounts := by
    unfold Operation.Fits
    decide +kernel
  have known : again.id ∈ (createdTwo.rtake 100000).map (·.commandID) := by decide +kernel
  obtain ⟨-, q, mem, same, answer⟩ := ((answered_once_in_window {}
    ⟨rfl, rfl, by decide, by decide⟩ _ _ [] recorded).2 [again] results fits ok).2 [] again [] rfl
      |>.1 (.inl known)
  exact ⟨results, ok, q, mem, same, answer⟩

/-! ## Behind the last sequence -/

/-- A new command that fits is decided and answered with its result. -/
theorem Core.answers_new {e : Core} (below : e.MarksBelow) {c : Command} (takes : e.Takes [c])
    (fresh : c.id ∉ e.retained.results) (short : c.id.length < 1000) :
    let r := e.book.decide (e.sequence + 1) c
    (e.decideBatch [c]).records = [r] ∧ (walPayload [r]).length ≤ maxWALFrameBytes ∧
      SameHandle { e with wal := (appendBatch e.wal [r] none).1 } (e.submitBatch [c] none).1 ∧
      (e.submitBatch [c] none).2 = .ok [r.result] := by
  intro r
  have all : e.executed [c] = [c] := executed_eq_self (by simpa using fresh) (by simp)
  have records : (e.decideBatch [c]).records = [r] := by
    rw [records_decideBatch below takes.valid, all]
    simp [Decisions.batch, Decisions.run, Decisions.step, r]
  have results := results_of_executed below takes.valid all
  have fits : (walPayload [r]).length ≤ maxWALFrameBytes := by
    have id : r.commandID = c.id := rfl
    simp only [walPayload, List.length_append, length_putUint32, List.flatMap_cons,
      List.flatMap_nil, List.length_nil, length_appendWALRecord, id]
    rw [maxWALFrameBytes]
    omega
  have appends : ∃ wal, appendBatch e.wal [r] none = (wal, none) := by
    cases wal : e.wal with
    | none => exact ⟨none, rfl⟩
    | some file => exact ⟨some (file.write (Frame.frame (walPayload [r]))), by
        simp only [appendBatch, if_neg (not_lt.mpr fits)]⟩
  refine ⟨records, fits, ?_⟩
  have outcome := submitBatch_spec below [c] none
  generalize e.submitBatch [c] none = p at outcome ⊢
  obtain ⟨t, out⟩ := p
  cases outcome with
  | refused not => exact absurd takes not
  | empty none => cases none
  | repeated _ none =>
    rw [records] at none
    cases none
  | failed _ _ wal message append =>
    obtain ⟨wal', appends⟩ := appends
    rw [records, appends] at append
    cases append
  | committed _ _ wal append =>
    rw [records] at append
    rw [append]
    exact ⟨sameHandle_committed below takes.valid wal, by rw [results, records]; rfl⟩

def oneResult : CoreConfig := { dedupeWindow := 1 }

theorem durable_oneResult : oneResult.Durable := ⟨rfl, rfl, by decide, by decide⟩

/-- Commands with two IDs in turn, on an account that does not exist. -/
def turn (n : Nat) : Command :=
  { id := [if n % 2 = 0 then 97 else 98], kind := .deposit, account := 1, amount := 1 }

theorem turn_valid (n : Nat) : (turn n).Valid := rfl

theorem turn_succ_ne (n : Nat) : (turn (n + 1)).id ≠ (turn n).id := by
  rcases Nat.mod_two_eq_zero_or_one n with even | odd
  · simp [turn, even, Nat.add_mod]
  · simp [turn, odd, Nat.add_mod]

/-- A session after the first of these commands. -/
structure InTurn (n : Nat) (s : Session) (done : List WalRecord) : Prop where
  safe : Recorded oneResult Operation.Safe s done []
  faultless : Recorded oneResult (fun _ op => op.Faultless) s done []
  length : done.length = n
  accounts : ∀ r ∈ done, r.a = 1
  last : ∀ id ∈ (done.rtake 1).map (·.commandID), id ≠ (turn n).id
  opened : s.core.closed = false
  sane : s.core.poisoned = none

/-- An engine whose decisions were all on some accounts has slots for these only. -/
theorem Chronicle.size_le {horizon : Nat} {done : List WalRecord} {e : Core}
    (chronicle : Chronicle horizon done e.bank) {A : Finset AccountID}
    (inside : ∀ r ∈ done, r.a ∈ A) : e.table.size ≤ A.card := by
  have small : e.table.size ≤ (Table.empty : Table Row).size + A.card := by
    refine Table.size_le_add_card fun id known => ?_
    rw [← Core.isSome_book, show e.book = e.bank.book from rfl, chronicle.book,
      Book.isSome_foldl_apply] at known
    rcases known with listed | old
    · obtain ⟨r, mem, rfl⟩ := List.mem_map.mp listed
      exact .inr (inside r mem)
    · cases old
  simpa using small

/-- An engine that retains one result knows the ID of the last decision only. -/
theorem Chronicle.unretained {done : List WalRecord} {e : Core}
    (chronicle : Chronicle 1 done e.bank) {id : Bytes}
    (last : ∀ other ∈ (done.rtake 1).map (·.commandID), other ≠ id) :
    id ∉ e.retained.results := by
  intro known
  have holds : Holds 1 _ ([] ++ done) := chronicle.following.holds Nat.one_pos (.empty 1)
  rw [← chronicle.bank_eq, List.nil_append] at holds
  have listed := (holds.mem_iff_rtake _).mp known
  rw [List.map_map, ← Window.map_rtake] at listed
  exact last _ listed rfl

namespace InTurn

variable {n : Nat} {s : Session} {done : List WalRecord}

theorem chronicle (h : InTurn n s done) : Chronicle 1 done s.core.bank :=
  h.safe.chronicled.sane h.sane

/-- An engine with the bank of the session takes the next command, which is new to it. -/
theorem takes (h : InTurn n s done) {e : Core} (bank : e.bank = s.core.bank)
    (bounds : e.bounds = oneResult.bounds) (opened : e.closed = false) (sane : e.poisoned = none) :
    e.Takes [turn n] ∧ (turn n).id ∉ e.retained.results := by
  have chronicle := h.chronicle
  rw [← bank] at chronicle
  have small := chronicle.size_le (A := {1}) (by simpa using h.accounts)
  refine ⟨⟨opened, sane, by simp, ?_, by simp [turn_valid], ?_⟩, chronicle.unretained h.last⟩
  · rw [bounds]
    exact (by decide : 1 ≤ oneResult.bounds.batchMax)
  · have none : e.newAccounts [turn n] = ∅ := by simp [Core.newAccounts, turn]
    rw [none, bounds, Finset.card_empty]
    exact small.trans (by decide)

theorem start : InTurn 0 ⟨.created oneResult, {}⟩ [] :=
  have opens := openCore_empty durable_oneResult []
  ⟨.created opens, .created opens, rfl, by simp, by simp, rfl, rfl⟩

theorem step (h : InTurn n s done) (room : n + 1 < 2 ^ 64) :
    ∃ t done', InTurn (n + 1) t done' := by
  have chronicled := h.safe.chronicled
  obtain ⟨takes, fresh⟩ := h.takes rfl chronicled.bounds h.opened h.sane
  obtain ⟨records, -, handle, ok⟩ :=
    Core.answers_new chronicled.marks takes fresh (by simp [turn])
  have count : s.core.sequence.toNat = n := chronicled.count.trans h.length
  refine ⟨_, _, h.safe.answered (by simpa [Operation.Safe, count] using room) ok,
    h.faultless.answered rfl ok, ?_, ?_, ?_, handle.closed.trans h.opened,
    handle.poisoned.trans h.sane⟩
  · rw [records, List.length_append, h.length]
    rfl
  · rw [records]
    intro r mem
    rcases List.mem_append.mp mem with old | new
    · exact h.accounts r old
    · rw [List.mem_singleton.mp new]
      rfl
  · rw [records, List.rtake_concat_succ]
    intro id mem
    obtain rfl : id = (turn n).id := by simpa [List.rtake] using mem
    exact (turn_succ_ne n).symm

theorem exists_of_lt (room : n < 2 ^ 64) : ∃ s done, InTurn n s done := by
  induction n with
  | zero => exact ⟨_, _, start⟩
  | succ n ih =>
    obtain ⟨s, done, h⟩ := ih (by omega)
    exact h.step room

/-- At the last sequence the next record gets the sequence zero, and the log is read without it. -/
theorem skipped (h : InTurn (2 ^ 64 - 1) s done) :
    ∃ e, openCore oneResult (s.run (.submit [turn (2 ^ 64 - 1)] none)).directory [] = .ok e ∧
      e.bank = s.core.bank ∧ e.bounds = oneResult.bounds ∧ e.closed = false ∧
      e.poisoned = none := by
  have chronicled := h.safe.chronicled
  obtain ⟨takes, fresh⟩ := h.takes rfl chronicled.bounds h.opened h.sane
  obtain ⟨-, fits, handle, -⟩ := Core.answers_new chronicled.marks takes fresh (by simp [turn])
  obtain ⟨live, durable, -⟩ := chronicled.saved durable_oneResult
  obtain ⟨base, batches, _, kept, -⟩ := durable.kept
  obtain rfl := durable.same h.sane
  obtain ⟨r, record⟩ : ∃ r, s.core.book.decide (s.core.sequence + 1) (turn (2 ^ 64 - 1)) = r :=
    ⟨_, rfl⟩
  have zero : r.sequence = 0 := by
    have count : s.core.sequence.toNat = 2 ^ 64 - 1 := chronicled.count.trans h.length
    rw [← record, Book.decide_sequence, ← UInt64.toNat_inj, UInt64.toNat_add, count]
    rfl
  rw [record] at fits handle
  have loggable : LoggableBatch [r] := loggableBatch_of_fits (by simp [← record, turn]) fits
  have wal : (s.run (.submit [turn (2 ^ 64 - 1)] none)).core.wal =
      some ⟨walBytes (batches ++ [[r]]), (walBytes (batches ++ [[r]])).length⟩ := by
    refine handle.wal.trans ?_
    rw [kept.wal]
    simp only [appendBatch, if_neg (not_lt.mpr fits), Kept.write_end, walBytes_concat]
  have data : (s.run (.submit [turn (2 ^ 64 - 1)] none)).directory.wal =
      some (walBytes (batches ++ [[r]])) := by
    rw [Session.directory, wal]
  have snapshot : (s.run (.submit [turn (2 ^ 64 - 1)] none)).directory.snapshot =
      s.files.snapshot := by
    rw [Session.directory, wal]
    rfl
  obtain ⟨following, leads⟩ := kept.log.records
  have records : (batches ++ [[r]]).flatten.filter (base.sequence < ·.sequence) =
      batches.flatten.filter (base.sequence < ·.sequence) := by
    simp [List.filter_append, zero]
  have whole : ∀ batch ∈ batches ++ [[r]], LoggableBatch batch := by
    intro batch mem
    rcases List.mem_append.mp mem with old | new
    · exact kept.log.loggable batch old
    · rw [List.mem_singleton.mp new]
      exact loggable
  obtain ⟨e, bank, -, same, opens⟩ := openCore_records durable_oneResult (snapshot ▸ kept.reads)
    whole (.inr ⟨[], .inl rfl, by rw [data, List.append_nil]⟩) records following []
  have bank : e.bank = s.core.bank := bank.trans leads
  have size := Core.size_of_bank bank
  have capacity := takes.capacity
  rw [chronicled.bounds] at capacity
  rw [if_neg (by rw [size, same.bounds]; exact not_lt.mpr (le_of_add_le_left capacity))] at opens
  exact ⟨e, opens, bank, same.bounds, same.closed, same.poisoned⟩

end InTurn

/-- After as many decisions as there are sequences, a command that was decided last is decided
once more when the engine has been opened again. -/
theorem decided_twice_behind_wrap :
    ∃ s done doubt, Recorded oneResult (fun _ op => op.Faultless) s done doubt ∧
      ∃ (c : Command) (r : Result), (s.core.submitBatch [c] none).2 = .ok [r] ∧
        c.id ∈ (done.rtake oneResult.bounds.dedupeWindow).map (·.commandID) ∧
        r.duplicate = false := by
  obtain ⟨s, done, h⟩ := InTurn.exists_of_lt (n := 2 ^ 64 - 1) (by decide)
  have chronicled := h.safe.chronicled
  obtain ⟨takes, fresh⟩ := h.takes rfl chronicled.bounds h.opened h.sane
  obtain ⟨records, -, -, ok⟩ := Core.answers_new chronicled.marks takes fresh (by simp [turn])
  obtain ⟨e, opens, bank, bounds, opened, sane⟩ := h.skipped
  have recorded := (h.faultless.answered rfl ok).reopened durable_oneResult opens
  rw [List.append_nil, ite_self, records] at recorded
  obtain ⟨takes', fresh'⟩ := h.takes bank bounds opened sane
  obtain ⟨-, -, -, ok'⟩ := Core.answers_new (.opened opens) takes' fresh' (by simp [turn])
  refine ⟨_, _, _, recorded, turn (2 ^ 64 - 1), _, ok', ?_, rfl⟩
  rw [show oneResult.bounds.dedupeWindow = 0 + 1 from rfl, List.rtake_concat_succ]
  simp

end OctetDB.Accounts
