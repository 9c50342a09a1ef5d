import OctetDB.Keyed.Reopen

/-!
# A crash during a snapshot

A snapshot may stop after any of its file operations, and what was not synchronized by then
may be lost. The directory that is left tells the live state in every case: from the old
snapshot and the whole log, from the new snapshot with the log that it covers, or from the
new snapshot alone. A handle that goes on from there appends the next sequences behind them.
-/

namespace OctetDB

/-- The directories that a crash can leave after the first operations of a snapshot. Before its
Sync the temporary file has any contents; before the Sync of the directory the rename may be
undone; before the Sync of the log its old contents may come back. -/
inductive Store.SnapshotCrash (st : Store) : Nat → Directory → Prop where
  | after (n : Nat) : SnapshotCrash st n (st.crash n)
  | unwritten {n : Nat} (early : n ≤ 3) (tmp : Option Bytes) :
      SnapshotCrash st n { st.crash n with snapshotTmp := tmp }
  | unrenamed (tmp : Option Bytes) : SnapshotCrash st 6 { st.dir with snapshotTmp := tmp }
  | untruncated {n : Nat} (late : n = 8 ∨ n = 9) :
      SnapshotCrash st n { st.crash n with wal := st.dir.wal }

/-- The records of the log are consecutive, and those behind the ones that the snapshot covers
continue its sequence. -/
def Directory.Contiguous (d : Directory) : Prop :=
  ∃ covered tail first, d.wal.getD [] = logOf (covered ++ tail) ∧ Consecutive first covered ∧
    endSequence first covered = d.readSnapshot.sequence ∧ Consecutive d.readSnapshot.sequence tail

section Files

variable {options : KeyedBounds} {format : KeyedFormat} {st : Store}

section

variable (h : SoundLogged options format st)
include h

/-- The temporary file does not matter. -/
theorem SoundLogged.congr {d : Directory}
    (marker : d.format = st.dir.format) (snapshot : d.snapshot = st.dir.snapshot)
    (wal : d.wal = st.dir.wal) : SoundLogged options format ⟨st.db, d⟩ := by
  obtain ⟨base, covered, tail, first, image⟩ := h
  exact ⟨base, covered, tail, first, { image with
    marker := marker.trans image.marker
    snapshot := by
      simp only [snapshot]
      exact image.snapshot
    wal := by
      simp only [wal]
      exact image.wal }⟩

theorem SoundLogged.snapshotCrash {n : Nat} {d : Directory}
    (crash : st.SnapshotCrash n d) : SoundLogged options format ⟨st.db, d⟩ := by
  cases crash with
  | after n => exact h.crash n
  | unwritten early tmp => exact (h.crash n).congr rfl rfl rfl
  | unrenamed tmp => exact h.congr rfl rfl rfl
  | untruncated late =>
    -- The truncation is the operation behind the first seven.
    rcases late with rfl | rfl <;> exact (h.crash 7).congr rfl rfl rfl

/-- The files open as the live state of a sound handle. -/
theorem SoundLogged.opens_live (live : st.db.poisoned = false) :
    ∃ e, openStorage (.blank options format) st.dir = .ok (st.db, e) ∧
      SoundLogged options format ⟨st.db, e⟩ := by
  obtain ⟨db, e, opened⟩ := h.opens
  obtain ⟨base, covered, tail, first, image⟩ := id h
  have same : db = st.db := by
    obtain ⟨rfl, -⟩ := image.openStorage_ok opened
    have state := image.state
    rw [live, ← (image.opened.foldl tail).live] at state
    exact state.symm
  subst same
  exact ⟨e, opened, h.reopen opened⟩

theorem SoundLogged.contiguous : st.dir.Contiguous := by
  obtain ⟨base, covered, tail, first, image⟩ := h
  have sequence : st.dir.readSnapshot.sequence = base.sequence := by
    rcases image.snapshot with ⟨none, blank⟩ | file
    · simp [Directory.readSnapshot, none, blank, KeyedDB.blank]
    · rw [image.persistable.readSnapshot_eq file]
      rfl
  exact ⟨covered, tail, first, image.wal, image.chain, sequence ▸ image.frontier,
    sequence ▸ image.extend.consecutive⟩

end

end Files

/-- In a run of recoverable groups, a crash at any point of a snapshot of a sound handle leaves a
directory that opens as exactly the state of the handle, and wherever the run goes on, behind
the crash or behind the completed snapshot, the log stays contiguous with the snapshot. -/
theorem snapshot_crash_opens {options : KeyedOptions} {format : KeyedFormat} {st : Store}
    (reachable : st.Reachable options format Store.RecoverableGroup)
    (live : st.db.poisoned = false) :
    (∀ n d, st.SnapshotCrash n d → ∃ e, openKeyed options format d = .ok (st.db, e) ∧
      ∀ later, Relation.ReflTransGen (Store.Step options format Store.RecoverableGroup)
        ⟨st.db, e⟩ later → later.dir.Contiguous) ∧
    ∀ later, Relation.ReflTransGen (Store.Step options format Store.RecoverableGroup)
      ⟨st.db, (snapshotKeyed st.db st.dir none).1⟩ later → later.dir.Contiguous := by
  obtain ⟨bounds, normal⟩ := reachable.normal
  have logged := reachable.soundLogged normal
  constructor
  · intro n d crash
    obtain ⟨e, opened, again⟩ := (logged.snapshotCrash crash).opens_live live
    rw [openKeyed_ok normal]
    exact ⟨e, opened, fun later run => (again.run normal run).contiguous⟩
  · intro later run
    exact ((logged.crash snapshotOps.length).run normal run).contiguous

/-- The log was truncated and its old contents come back. -/
theorem snapshot_crash_opens_untruncated :
    ∃ e, openKeyed smallOptions .keyed { storedStore.crash 8 with wal := storedStore.dir.wal } =
      .ok (storedStore.db, e) := by
  obtain ⟨e, opened, -⟩ := (snapshot_crash_opens storedStore_reachable (by decide +kernel)).1 8 _
    (.untruncated (.inl rfl))
  exact ⟨e, opened⟩

/-- The deletion of a key that is longer than a transaction may be, committed. -/
def droppedStore : Store := (Store.fresh tightBounds .keyed).commit [commandRequest "a" dropping]

set_option maxRecDepth 8000 in
/-- The snapshot is installed and the log not yet emptied: recovery refuses the record of the
deletion. -/
theorem snapshot_crash_refused :
    droppedStore.Reachable tightOptions .keyed (fun _ _ => True) ∧
      droppedStore.db.poisoned = false ∧ droppedStore.SnapshotCrash 6 (droppedStore.crash 6) ∧
      openKeyed tightOptions .keyed (droppedStore.crash 6) = .error exceeded := by
  refine ⟨⟨_, rfl, .single (.commit _ _ trivial)⟩, by decide +kernel, .after 6, ?_⟩
  exact failure_eq_some.mp (by decide +kernel)

end OctetDB
