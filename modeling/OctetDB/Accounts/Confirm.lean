import OctetDB.Accounts.Chronicle
import OctetDB.Accounts.Faults

/-!
# Confirmed transfers

A transfer is confirmed only if it was begun, and once only. The pending transfer of an account
is that of the last accepted begin on it that no confirmation and no cancellation has ended; a
confirmation is accepted only if it fits this transfer, and it ends it.
-/

namespace OctetDB.Accounts

/-- The kind of a record is that of its command. -/
theorem CommandKind.tag_injective : Function.Injective CommandKind.tag := by
  intro k l same
  cases k <;> cases l <;> simp_all [tag] <;> grind

/-! ## Begun and ended transfers -/

structure WalRecord.Begins (r : WalRecord) (a b : AccountID) (amount : Int64) : Prop where
  kind : r.kind = CommandKind.beginTransfer.tag
  accepted : r.accepted = true
  account : r.a = a
  other : r.b = b
  amount_eq : r.amount = amount

/-- A record, accepted or not, that ends the pending transfer of an account. -/
structure WalRecord.Ends (r : WalRecord) (a : AccountID) : Prop where
  account : r.a = a
  kind : r.kind = CommandKind.confirm.tag ∨ r.kind = CommandKind.cancel.tag

structure WalRecord.Confirms (r : WalRecord) : Prop where
  kind : r.kind = CommandKind.confirm.tag
  accepted : r.accepted = true

/-- The last of the records that begins or ends a transfer of the account begins the given one. -/
def Begun (done : List WalRecord) (a b : AccountID) (amount : Int64) : Prop :=
  ∃ before r after, done = before ++ r :: after ∧ r.Begins a b amount ∧ ∀ x ∈ after, ¬ x.Ends a

theorem Begun.concat {done : List WalRecord} {a b : AccountID} {amount : Int64} {r : WalRecord}
    (begun : Begun done a b amount) (goesOn : ¬ r.Ends a) : Begun (done ++ [r]) a b amount := by
  obtain ⟨before, x, after, rfl, begins, none⟩ := begun
  refine ⟨before, x, after ++ [r], by simp, begins, fun y mem => ?_⟩
  rcases List.mem_append.mp mem with old | last
  · exact none y old
  · rw [List.mem_singleton.mp last]
    exact goesOn

/-! ## Decisions -/

/-- A staged book has pending transfers of accounts that it knows only. -/
theorem Book.Shows.entry_of_active {S D : Book} (shows : S.Shows D) {a : AccountID}
    (active : (S.entry a).agent.pending.active = true) : S.entry a = D.entry a := by
  cases found : S a with
  | none => simp [Book.entry, found, Entry.fresh] at active
  | some entry =>
    have same := shows.used a (by simp [found])
    rw [Book.entry, Book.entry, same]

/-- A confirmation is accepted only if it fits the pending transfer. -/
theorem Book.pending_of_confirms {S : Book} {sequence : UInt64} {c : Command}
    (confirms : (S.decide sequence c).Confirms) :
    (S.entry c.account).agent.pending = ⟨true, c.other, c.amount⟩ := by
  obtain ⟨kind, accepted⟩ := confirms
  have kind : c.kind = .confirm := CommandKind.tag_injective kind
  change (decideGo c _ _ _ _ (S.entry c.account).agent.pending).accepted = true at accepted
  unfold decideGo at accepted
  rw [kind] at accepted
  simp only at accepted
  split at accepted
  · cases accepted
  · rename_i fits
    generalize (S.entry c.account).agent.pending = pending at fits
    obtain ⟨active, target, amount⟩ := pending
    simp only [Bool.or_eq_true, not_or, decide_eq_true_eq, not_not] at fits
    obtain ⟨⟨active, rfl⟩, rfl⟩ := fits
    simpa using active

/-- The pending transfer behind a decision was begun by it, or was there before. -/
theorem Book.pending_of_decide {S : Book} {sequence : UInt64} {c : Command}
    (active : (S.decide sequence c).agent.pending.active = true) :
    (S.decide sequence c).Begins c.account (S.decide sequence c).agent.pending.target
        (S.decide sequence c).agent.pending.amount ∨
      ((S.decide sequence c).agent.pending = (S.entry c.account).agent.pending ∧
        ¬ (S.decide sequence c).Ends c.account) := by
  have pending : (S.decide sequence c).agent.pending = (S.entry c.account).agent.pending.next c
    (decideGo c (S.entry c.account).account (S.entry c.account).present (S.peer c.other).account
      (S.peer c.other).present (S.entry c.account).agent.pending) := rfl
  rw [pending] at active ⊢
  unfold PendingTransfer.next at active ⊢
  split
  · rename_i begins
    exact .inl ⟨congrArg CommandKind.tag begins.1, begins.2, rfl, rfl, rfl⟩
  rename_i other
  rw [if_neg other] at active
  split
  · rename_i ends
    rw [if_pos ends] at active
    cases active
  · rename_i goesOn
    refine .inr ⟨rfl, fun ends => goesOn ?_⟩
    exact ends.kind.imp (fun h => CommandKind.tag_injective h)
      (fun h => CommandKind.tag_injective h)

namespace Book.DecidedRun

variable {done : List WalRecord}

/-- The pending transfers behind decisions are those that were begun and not ended. -/
theorem begun (decided : ({} : Bank).book.DecidedRun done) {a : AccountID}
    {pending : PendingTransfer}
    (same : ((done.foldl Book.apply ({} : Bank).book).entry a).agent.pending = pending)
    (active : pending.active = true) : Begun done a pending.target pending.amount := by
  induction done using List.reverseRecOn generalizing pending with
  | nil =>
    subst same
    cases active
  | append_singleton before r ih =>
    obtain ⟨earlier, ⟨S, c, shows, -, made⟩, -⟩ := Book.decidedRun_append.mp decided
    rw [List.foldl_append, List.foldl_cons, List.foldl_nil, Book.entry_apply] at same
    split at same
    · rename_i account
      have same : r.agent.pending = pending := same
      obtain rfl : a = c.account := account.trans (congrArg WalRecord.a made)
      subst same
      have active' : (S.decide r.sequence c).agent.pending.active = true := made ▸ active
      -- The record is on the account: it begins the transfer, or it leaves it as it was.
      rcases Book.pending_of_decide active' with begins | ⟨kept, goesOn⟩
      · rw [← made] at begins
        exact ⟨before, r, [], rfl, begins, by simp⟩
      · rw [kept] at active'
        have entry := shows.entry_of_active active'
        rw [← made, entry] at kept
        rw [← made] at goesOn
        exact (ih earlier kept.symm active).concat goesOn
    · rename_i other
      have old : ((before.foldl Book.apply ({} : Bank).book).entry a).agent.pending = pending := by
        split at same
        · rw [← same]
          unfold WalRecord.receive
          split <;> rfl
        · exact same
      exact (ih earlier old active).concat fun ends => other ends.account.symm

/-- What is confirmed was begun. -/
theorem begun_of_confirms {before after : List WalRecord} {r : WalRecord}
    (decided : ({} : Bank).book.DecidedRun (before ++ r :: after)) (confirms : r.Confirms) :
    Begun before r.a r.b r.amount := by
  obtain ⟨earlier, ⟨S, c, shows, -, made⟩, -⟩ := Book.decidedRun_append.mp decided
  rw [made] at confirms
  have pending := Book.pending_of_confirms confirms
  have entry := shows.entry_of_active (congrArg PendingTransfer.active pending)
  rw [entry] at pending
  have begun := earlier.begun pending rfl
  rw [made]
  exact begun

end Book.DecidedRun

/-! ## Places in the history -/

/-- The accepted begin at place `i` justifies the accepted confirmation at place `j`: it is of the
same transfer, and between them nothing ends a transfer of the account. -/
def Justifies (done : List WalRecord) (i j : Nat) : Prop :=
  i < j ∧ ∃ r q, done[i]? = some r ∧ done[j]? = some q ∧ q.Confirms ∧ r.Begins q.a q.b q.amount ∧
    ∀ k x, i < k → k < j → done[k]? = some x → ¬ x.Ends q.a

theorem Begun.justifies {before after : List WalRecord} {q : WalRecord} (confirms : q.Confirms)
    (begun : Begun before q.a q.b q.amount) :
    ∃ i, Justifies (before ++ q :: after) i before.length := by
  obtain ⟨first, r, rest, rfl, begins, none⟩ := begun
  refine ⟨first.length, by simp, r, q, by simp, by simp, confirms, begins,
    fun k x low high found => ?_⟩
  rw [List.getElem?_append_left high, List.getElem?_append_right low.le] at found
  obtain ⟨k, rfl⟩ := Nat.exists_eq_add_of_lt low
  rw [show first.length + k + 1 - first.length = k + 1 by omega, List.getElem?_cons_succ] at found
  exact none x (List.mem_of_getElem? found)

/-- A begin justifies one confirmation at most, since this one ends the transfer. -/
theorem Justifies.not_lt {done : List WalRecord} {i j k : Nat} (first : Justifies done i j)
    (second : Justifies done i k) : ¬ j < k := by
  obtain ⟨later, r, q, begun, confirmed, confirms, begins, -⟩ := first
  obtain ⟨-, r', q', begun', -, -, begins', none⟩ := second
  intro lt
  rw [begun, Option.some.injEq] at begun'
  subst begun'
  exact none j q later lt confirmed
    ⟨begins.account.symm.trans begins'.account, .inl confirms.kind⟩

def confirmTransfer : List Command :=
  [{ id := [100], kind := .confirm, account := 1, other := 2, amount := 3 }]

/-- The session behind a snapshot of an engine that a begin of a transfer has poisoned. -/
def begunPoisoned : Session :=
  (twoAccounts.run (.submit beginTransfer (some (.write 0 "disk full")))).run (.snapshot none)

set_option maxRecDepth 20000 in
theorem recorded_begunPoisoned :
    Recorded {} (fun _ _ => True) begunPoisoned createdTwo
      (twoAccounts.core.decideBatch beginTransfer).records := by
  refine .snapshot (.failed (recorded_twoAccounts fun _ _ => trivial) trivial
    (failure_eq_some.mp (?_ : _ = some ⟨.durabilityWriteFailed, "disk full"⟩)) ?_) trivial
  · decide +kernel
  · decide +kernel

end OctetDB.Accounts
