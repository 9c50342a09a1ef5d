import OctetDB.Research.Agents

/-!
# The concurrent engine executes commands one after the other

Decisions are made before their sequence is known, on accounts that other agents may change. What
a decision is made of can only change with the accounts whose tokens the agent has; the other
account of a command that takes no token for it is recorded and never used. So a decision fits the
store until it is applied, and the engine is always in the state of a serial execution of the
commands that it has committed.
-/

namespace OctetDB.Research

open Function (update update_of_ne update_self)

open Accounts

/-! ## What a decision depends on -/

/-- The records have the same effect on a store. -/
structure LogRecord.Alike (r s : LogRecord) : Prop where
  sequence : r.sequence = s.sequence
  commandID : r.commandID = s.commandID
  accountA : r.accountA = s.accountA
  accountB : r.accountB = s.accountB
  amount : r.amount = s.amount
  result : r.result = s.result
  effectTag : r.effectTag = s.effectTag
  newBalanceA : r.newBalanceA = s.newBalanceA
  newStatusTag : r.newStatusTag = s.newStatusTag
  newBalanceB : r.effectTag = 3 → r.newBalanceB = s.newBalanceB

namespace LogRecord.Alike

variable {r s t : LogRecord}

theorem refl (r : LogRecord) : r.Alike r :=
  ⟨rfl, rfl, rfl, rfl, rfl, rfl, rfl, rfl, rfl, fun _ => rfl⟩

theorem trans (first : r.Alike s) (second : s.Alike t) : r.Alike t where
  sequence := first.sequence.trans second.sequence
  commandID := first.commandID.trans second.commandID
  accountA := first.accountA.trans second.accountA
  accountB := first.accountB.trans second.accountB
  amount := first.amount.trans second.amount
  result := first.result.trans second.result
  effectTag := first.effectTag.trans second.effectTag
  newBalanceA := first.newBalanceA.trans second.newBalanceA
  newStatusTag := first.newStatusTag.trans second.newStatusTag
  newBalanceB three := (first.newBalanceB three).trans
    (second.newBalanceB (first.effectTag ▸ three))

theorem apply (alike : r.Alike s) (store : Store) : store.apply r = store.apply s := by
  obtain ⟨sequence, commandID, accountA, accountB, amount, result, effectTag, newBalanceA,
    newStatusTag, newBalanceB⟩ := alike
  have entry : r.ledgerEntry = s.ledgerEntry := by
    simp only [LogRecord.ledgerEntry, sequence, commandID, accountA, accountB, amount, effectTag]
  have write : store.write r = store.write s := by
    simp only [Store.write, accountA, accountB, newBalanceA, newStatusTag]
    by_cases three : r.effectTag = 3
    · rw [newBalanceB three, effectTag]
    · rw [← effectTag]
      simp [three]
  rw [Store.apply, Store.apply, result, write, entry]

end LogRecord.Alike

variable {c : Command} {a : AccountID} {new : Agent}

/-- A command that takes no token for its other account only notes its balance. -/
theorem decideGo_other (single : ¬ (c.kind = .transfer ∨ c.kind = .confirm)) (a : Account)
    (aok : Bool) (b b' : Account) (bok bok' : Bool) (pending : PendingTransfer) :
    decideGo c a aok b bok pending =
        { decideGo c a aok b' bok' pending with balanceB := b.balance } ∧
      (decideGo c a aok b bok pending).effect ≠ 3 := by
  obtain ⟨id, kind, account, other, amount⟩ := c
  cases kind with
  | transfer => exact absurd (.inl rfl) single
  | confirm => exact absurd (.inr rfl) single
  | cancel | unknown => exact ⟨rfl, by simp [decideGo, reject, unchanged]⟩
  | _ =>
    simp only [decideGo]
    split_ifs <;> exact ⟨rfl, by simp [reject, unchanged]⟩

/-- The stores have the same accounts at the tokens of a command. -/
def Store.Agrees (s t : Store) (c : Command) : Prop :=
  ∀ x ∈ tokensFor c, s.accounts[x]? = t.accounts[x]?

/-- Decisions on stores that agree at the tokens have the same effect. -/
theorem processGoM1_agrees {s t : Store} (agrees : s.Agrees t c) (state : AgentState) (n : UInt64) :
    (processGoM1 s state c).next = (processGoM1 t state c).next ∧
      ((processGoM1 s state c).number n).record.Alike
        ((processGoM1 t state c).number n).record := by
  have look (x : AccountID) (mem : x ∈ tokensFor c) :
      s.accounts.getD x {} = t.accounts.getD x {} ∧
        s.accounts.contains x = t.accounts.contains x := by
    rw [Std.ExtTreeMap.getD_eq_getD_getElem?, Std.ExtTreeMap.getD_eq_getD_getElem?,
      Std.ExtTreeMap.contains_eq_isSome_getElem?, Std.ExtTreeMap.contains_eq_isSome_getElem?,
      agrees x mem]
    exact ⟨rfl, rfl⟩
  obtain ⟨a, aok⟩ := look c.account (mem_tokensFor.mpr (.inl rfl))
  by_cases both : c.kind = .transfer ∨ c.kind = .confirm
  · obtain ⟨b, bok⟩ := look c.other (mem_tokensFor.mpr (.inr ⟨both, rfl⟩))
    have same : s.view c.account c.other = t.view c.account c.other := by
      simp only [Store.view, a, aok, b, bok]
    simp only [processGoM1, same]
    exact ⟨trivial, .refl _⟩
  · obtain ⟨same, effect⟩ := decideGo_other both (t.accounts.getD c.account {})
      (t.accounts.contains c.account) (s.accounts.getD c.other {}) (t.accounts.getD c.other {})
      (s.accounts.contains c.other) (t.accounts.contains c.other) state.pending
    simp only [processGoM1, Store.view, a, aok, same]
    refine ⟨rfl, rfl, rfl, rfl, rfl, rfl, rfl, rfl, rfl, rfl, fun three => ?_⟩
    rw [same] at effect
    exact absurd three effect

/-- A record leaves the accounts alone that it is not about. -/
theorem Store.getElem?_apply {r : LogRecord} {x : AccountID} (store : Store) (a : x ≠ r.accountA)
    (b : r.effectTag = 3 → x ≠ r.accountB) :
    (store.apply r).accounts[x]? = store.accounts[x]? := by
  unfold Store.apply
  split
  · rfl
  · simp only [Store.write]
    split_ifs with one two three four
    · simp [Store.Shows.getElem?_put, a]
    · simp [Store.Shows.getElem?_put, a]
    · simp [Store.Shows.getElem?_put, a, b three]
    · simp [Store.Shows.getElem?_put, a]
    · rfl

/-- The decision is the one that the engine would make now. -/
structure Commit.Fits (m : Commit) (store : Store) (state : AgentState) : Prop where
  next : m.next = (processGoM1 store state m.command).next
  record : m.record.Alike ((processGoM1 store state m.command).number m.record.sequence).record

namespace Commit.Fits

variable {m : Commit} {s t : Store} {state : AgentState}

theorem refl (store : Store) (state : AgentState) (c : Command) :
    (processGoM1 store state c).Fits store state := ⟨rfl, .refl _⟩

theorem agrees (fits : m.Fits s state) (agrees : s.Agrees t m.command) : m.Fits t state := by
  obtain ⟨next, alike⟩ := processGoM1_agrees agrees state m.record.sequence
  exact ⟨fits.next.trans next, fits.record.trans alike⟩

theorem number (fits : m.Fits s state) (n : UInt64) : (m.number n).Fits s state where
  next := fits.next
  record :=
    { fits.record with
      sequence := rfl
      result := by
        have result := fits.record.result
        simp only [Commit.number] at result ⊢
        rw [result] }

theorem apply (fits : m.Fits s state) {c : Command}
    (apart : ∀ x ∈ tokensFor c, x ∉ tokensFor m.command) : s.Agrees (s.apply m.record) c := by
  intro x mem
  have outside := apart x mem
  rw [mem_tokensFor, not_or] at outside
  have effect : m.record.effectTag = 3 →
      m.command.kind = .transfer ∨ m.command.kind = .confirm := by
    intro three
    by_contra single
    rw [fits.record.effectTag] at three
    exact (decideGo_other single _ _ _ {} _ true _).2 three
  refine (Store.getElem?_apply s ?_ fun three => ?_).symm
  · rw [fits.record.accountA]
    exact outside.1
  · rw [fits.record.accountB]
    exact fun same => outside.2 ⟨effect three, same⟩

end Commit.Fits

/-! ## Serial execution -/

/-- The state of an engine that executes one command after the other. -/
structure Serial where
  store : Store := {}
  state : AccountID → AgentState := fun _ => {}
  sequence : UInt64 := 0
  results : List Result := []

def Serial.execute (s : Serial) (c : Command) : Serial :=
  let v := s.store.view c.account c.other
  let d := decideGo c v.a v.aok v.b v.bok (s.state c.account).pending
  let next : AgentState :=
    { pending := (s.state c.account).pending.next c d, turns := (s.state c.account).turns + 1 }
  let record := decisionRecord { sequence := s.sequence + 1 } c v d next.turns []
  { store := s.store.apply record
    state := update s.state c.account next
    sequence := s.sequence + 1
    results := s.results ++ [record.result] }

/-- The state behind commands. -/
def serial (commands : List Command) : Serial := commands.foldl Serial.execute {}

theorem serial_concat (commands : List Command) (c : Command) :
    serial (commands ++ [c]) = (serial commands).execute c := by
  simp [serial]

theorem length_results (commands : List Command) :
    (serial commands).results.length = commands.length := by
  induction commands using List.reverseRecOn with
  | nil => rfl
  | append_singleton commands c ih =>
    rw [serial_concat, Serial.execute, List.length_append, ih, List.length_append]
    rfl

theorem sequence_serial (commands : List Command) :
    (serial commands).sequence = UInt64.ofNat commands.length := by
  induction commands using List.reverseRecOn with
  | nil => rfl
  | append_singleton commands c ih =>
    rw [serial_concat, Serial.execute, ih, List.length_append, UInt64.ofNat_add]
    rfl

def settled (commands : List Command) : List (Command × Result) :=
  commands.zip (serial commands).results

theorem settled_concat (commands : List Command) (c : Command) :
    ∃ r, (serial (commands ++ [c])).results = (serial commands).results ++ [r] ∧
      settled (commands ++ [c]) = settled commands ++ [(c, r)] := by
  refine ⟨_, by rw [serial_concat]; rfl, ?_⟩
  rw [settled, serial_concat, Serial.execute, List.zip_append (length_results commands).symm]
  rfl

/-- A decision that fits is applied like in a serial execution. -/
theorem Commit.Fits.execute {m : Commit} {s : Serial} (fits : m.Fits s.store (s.state m.account))
    (number : m.record.sequence = s.sequence + 1) :
    s.execute m.command =
      { store := s.store.apply m.record
        state := update s.state m.account m.next
        sequence := m.record.sequence
        results := s.results ++ [m.record.result] } := by
  let v := s.store.view m.command.account m.command.other
  let d := decideGo m.command v.a v.aok v.b v.bok (s.state m.command.account).pending
  have alike : m.record.Alike (decisionRecord { sequence := s.sequence + 1 } m.command v d
      ((s.state m.command.account).turns + 1) []) :=
    (number ▸ fits.record).trans ⟨rfl, rfl, rfl, rfl, rfl, rfl, rfl, rfl, rfl, fun _ => rfl⟩
  rw [alike.apply, alike.result, fits.next, number]
  rfl

/-! ## Every command is in one place -/

/-- The agent has sent its decision on the command. -/
def Agent.Decided (c : Command) : Agent → Prop
  | waiting d => d = c
  | releasing d _ _ => d = c
  | _ => False

theorem Agent.Decided.command {agent : Agent} (decided : agent.Decided c) :
    agent.command = some c := by
  cases agent with
  | waiting | releasing => exact congrArg some decided
  | _ => exact decided.elim

variable {σ : Type} {cfg : EngineConfig} {log : GroupLog σ} {e t : Engine σ} {event : Event}

namespace Engine

/-- How many times a command is on its way, with its agent, or answered. -/
def flow (e : Engine σ) (c : Command) : Nat :=
  e.entering.count c + (e.mailbox c.account).count c +
    (e.agent c.account).command.toList.count c + (e.answered.map Prod.fst).count c

/-- The agent of a command goes on with it. -/
theorem flow_goTo (same : new.command = (e.agent a).command) (c : Command) :
    (e.goTo a new).flow c = e.flow c := by
  unfold flow
  by_cases here : c.account = a
  · simp [goTo, here, same]
  · simp [goTo, update_of_ne here]

theorem Step.flow (sound : e.Sound) (next : Step cfg log e event t)
    (le : ∀ c, e.flow c ≤ e.submitted.count c) (c : Command) : t.flow c ≤ t.submitted.count c := by
  have le := le c
  cases next with
  | enter d valid opened =>
    simp only [Engine.flow, List.count_append] at le ⊢
    omega
  | @enqueue d before behind entering room =>
    simp only [Engine.flow, entering, List.count_append, List.count_cons] at le ⊢
    by_cases here : c.account = d.account
    · rw [here] at le ⊢
      simp only [update_self, List.count_append, List.count_cons, List.count_nil]
      omega
    · rw [update_of_ne here]
      omega
  | @full d before behind entering none =>
    simp only [Engine.flow, entering, List.count_append, List.count_cons] at le ⊢
    omega
  | @take a d rest idle queued =>
    simp only [Engine.flow, goTo] at le ⊢
    by_cases here : c.account = a
    · rw [here, idle, queued] at le
      rw [here, update_self, update_self]
      simp only [Agent.command, Option.toList_none, Option.toList_some, List.count_cons,
        List.count_nil] at le ⊢
      omega
    · rw [update_of_ne here, update_of_ne here]
      exact le
  | lock here | decide here | send here | resume here | unlock here =>
    exact (flow_goTo (by simp [here, Agent.command, processGoM1]) c).trans_le le
  | @answer a d outcome released =>
    have here := (sound.command a d (by simp [released, Agent.command])).2.1
    simp only [Engine.flow, goTo, List.map_append, List.count_append] at le ⊢
    by_cases same : c.account = a
    · rw [same, released] at le
      rw [same, update_self]
      simp only [Agent.command, Option.toList_none, Option.toList_some, List.map_cons, List.map_nil,
        List.count_nil] at le ⊢
      omega
    · have other : d ≠ c := fun eq => same (eq ▸ here)
      rw [update_of_ne same]
      simp only [List.map_cons, List.map_nil, List.count_cons_of_ne other, List.count_nil]
      omega
  | _ => exact le

/-- What has been applied is answered, or about to be. -/
def Past (e : Engine σ) (c : Command) : Prop :=
  c ∈ e.answered.map Prod.fst ∨ (e.agent c.account).Decided c

theorem Past.goTo (past : e.Past c) (keeps : (e.agent a).Decided c → new.Decided c) :
    (e.goTo a new).Past c := by
  refine past.imp id fun decided => ?_
  change (update e.agent a new c.account).Decided c
  by_cases here : c.account = a
  · rw [here, update_self]
    exact keeps (here ▸ decided)
  · rw [update_of_ne here]
    exact decided

theorem Step.past (sound : e.Sound) (fitting : e.authority.Fitting) (next : Step cfg log e event t)
    (past : ∀ c ∈ e.committed, e.Past c) : ∀ c ∈ t.committed, t.Past c := by
  cases next with
  | take here | lock here | decide here | send here =>
    exact fun c mem => (past c mem).goTo fun decided => by simp [here, Agent.Decided] at decided
  | resume here | unlock here =>
    exact fun c mem => (past c mem).goTo fun decided => by
      simpa [here, Agent.Decided] using decided
  | @answer a d outcome released =>
    intro c mem
    rcases past c mem with answered | decided
    · refine .inl ?_
      change c ∈ (e.answered ++ [(d, outcome)]).map Prod.fst
      rw [List.map_append]
      exact List.mem_append_left _ answered
    · by_cases here : c.account = a
      · rw [here, released] at decided
        exact .inl (by simp [show d = c from decided, Engine.goTo])
      · refine .inr ?_
        change (update e.agent a .idle c.account).Decided c
        rw [update_of_ne here]
        exact decided
  | @apply m rest unique repeats deferred applying =>
    intro c mem
    rcases List.mem_append.mp mem with mem | mem
    · exact past c mem
    · obtain rfl := List.mem_singleton.mp mem
      rw [applying] at fitting
      have listed : m.command ∈ e.outstanding := by
        have member := fitting.subset (List.mem_cons_self ..)
        simp only [Engine.outstanding, applying, Authority.commits]
        exact List.mem_map_of_mem (by simp [member])
      have waits := (sound.outstanding _ listed).1
      exact .inr (by simp [Engine.apply, waits, Agent.Decided])
  | _ => exact past

/-- Where commands are, in a run in which no two of them have the same ID. -/
structure Tracked (e : Engine σ) : Prop where
  distinct : (e.submitted.map Command.id).Nodup
  flow : ∀ c, e.flow c ≤ e.submitted.count c
  past : ∀ c ∈ e.committed, e.Past c

namespace Tracked

theorem start (log : σ) : Tracked ({ log := log } : Engine σ) where
  distinct := List.nodup_nil
  flow c := by simp [Engine.flow, Agent.command]
  past := by simp

theorem submitted_past (tracked : e.Tracked) (sound : e.Sound) (past : e.Past c) :
    c ∈ e.submitted := by
  rcases past with answered | decided
  · have positive := List.count_pos_iff.mpr answered
    have le := tracked.flow c
    simp only [Engine.flow] at le
    exact List.count_pos_iff.mp (by omega)
  · exact (sound.command c.account c decided.command).2.2

theorem eq_of_id (tracked : e.Tracked) {d : Command} (first : c ∈ e.submitted)
    (second : d ∈ e.submitted) (same : c.id = d.id) : c = d :=
  List.inj_on_of_nodup_map tracked.distinct first second same

/-- A decision that is not sent yet has not been applied. -/
theorem not_committed (tracked : e.Tracked) {m : Commit} (sound : e.Sound)
    (sending : e.agent a = .sending m) : m.command ∉ e.committed := by
  intro mem
  have here := (sound.command a m.command (by simp [sending, Agent.command])).2.1
  rcases tracked.past _ mem with answered | decided
  · have positive := List.count_pos_iff.mpr answered
    have le := tracked.flow m.command
    have once := (List.nodup_iff_count_le_one.mp (tracked.distinct.of_map _)) m.command
    simp only [Engine.flow, here, sending, Agent.command, Option.toList_some,
      List.count_singleton_self] at le
    omega
  · rw [here, sending] at decided
    exact decided

end Tracked

/-- The condition on a run: commands have IDs of their own, and the storage does not fail. -/
def Orderly (e : Engine σ) : Event → Prop
  | .enter c => c.id ∉ e.submitted.map Command.id
  | .fail => False
  | _ => True

theorem Step.tracked (sound : e.Sound) (fitting : e.authority.Fitting)
    (next : Step cfg log e event t) (orderly : e.Orderly event) (tracked : e.Tracked) :
    t.Tracked where
  distinct := by
    have distinct := tracked.distinct
    cases next with
    | enter c valid opened =>
      simp only [List.map_append, List.map_cons, List.map_nil]
      exact List.nodup_append.mpr ⟨distinct, List.nodup_singleton _, fun x mem y last same => by
        rw [List.mem_singleton.mp last] at same
        exact orderly (same ▸ mem)⟩
    | _ => exact distinct
  flow := next.flow sound tracked.flow
  past := next.past sound fitting tracked.past

/-! ## The state of a serial execution -/

/-- The outcome is the result of the serial execution. -/
def Good (committed : List Command) (c : Command) (o : Outcome) : Prop :=
  ∃ r, o = .ok r ∧ (c, r) ∈ settled committed

theorem mem_settled_concat {committed : List Command} {p : Command × Result} (c : Command)
    (mem : p ∈ settled committed) : p ∈ settled (committed ++ [c]) := by
  obtain ⟨r, -, eq⟩ := settled_concat committed c
  exact eq ▸ List.mem_append_left _ mem

theorem Good.concat {committed : List Command} {o : Outcome} (good : Good committed c o)
    (d : Command) : Good (committed ++ [d]) c o :=
  good.imp fun _ => And.imp_right (mem_settled_concat d)

end Engine

open Engine (Good)

/-- What an agent has decided fits, and what it has been told is good. -/
def Agent.Serves (store : Store) (state : AgentState) (committed : List Command)
    (response : Option Outcome) : Agent → Prop
  | sending m => m.Fits store state
  | waiting c => ∀ o ∈ response, Good committed c o
  | releasing c o _ => Good committed c o
  | _ => True

/-- The decisions that the authority has taken and not applied. -/
def Authority.unapplied : Authority → List Commit
  | collecting group _ => group
  | sorting rest unique _ _ => rest ++ unique
  | applying rest _ _ _ => rest
  | _ => []

/-- The decisions of the log that are not applied. -/
def Authority.logged : Authority → List Commit
  | applying rest _ _ _ => rest
  | _ => []

/-- A group is numbered behind the commands that have been applied, and what has been applied of it
has the result of the serial execution. -/
def Authority.Serves (committed : List Command) : Authority → Prop
  | sorting _ unique repeats _ =>
    repeats = [] ∧ Numbered (committed.length + 1) (unique.map Commit.record)
  | applying rest unique repeats _ =>
    repeats = [] ∧ Numbered (committed.length + 1) (rest.map Commit.record) ∧
      ∃ done, unique = done ++ rest ∧
        ∀ m ∈ done, (m.command, m.record.result) ∈ settled committed
  | responding replies _ => ∀ p ∈ replies, Good committed p.1.command p.2
  | _ => True

theorem Dedupe.mem_rememberResult {window : Nat} {d : Dedupe} {id k : Bytes} {result : Result}
    (mem : k ∈ (d.rememberResult window id result).results) : k = id ∨ k ∈ d.results := by
  have inserted (mem : k ∈ d.results.insert id result) : k = id ∨ k ∈ d.results := by
    rw [Std.ExtTreeMap.mem_insert] at mem
    exact mem.imp_left fun same => (Std.LawfulEqCmp.eq_of_compare same).symm
  have erased (old : Bytes) (mem : k ∈ (d.results.insert id result).erase old) :
      k = id ∨ k ∈ d.results := inserted (Std.ExtTreeMap.mem_of_mem_erase mem)
  simp only [Dedupe.rememberResult] at mem
  split_ifs at mem
  all_goals first | exact erased _ mem | exact inserted mem

namespace Engine

/-- The decisions that are sent and not applied. -/
def unapplied (e : Engine σ) : List Commit :=
  e.channel.filterMap Message.commit? ++ e.authority.unapplied

/-- The engine is in the state of the serial execution of what it has committed. -/
structure Serializes (e : Engine σ) : Prop where
  sane : e.poisoned = none
  store : e.store = (serial e.committed).store
  state : e.state = (serial e.committed).state
  sequence : e.sequence = UInt64.ofNat e.committed.length
  known : ∀ id ∈ e.dedupe.results, id ∈ e.committed.map Command.id
  agents : ∀ a, (e.agent a).Serves e.store (e.state a) e.committed (e.response a)
  unapplied : ∀ m ∈ e.unapplied, m.Fits e.store (e.state m.account) ∧ m.command ∉ e.committed
  authority : e.authority.Serves e.committed
  answered : ∀ p ∈ e.answered, Good e.committed p.1 p.2
  numbered : Numbered 1 e.appended
  appended : e.appended.length = e.committed.length + e.authority.logged.length

/-- Different agents have different tokens. -/
theorem Sound.apart (sound : e.Sound) {b x : AccountID} (ne : a ≠ b) (mine : x ∈ (e.agent a).held) :
    x ∉ (e.agent b).held := by
  intro other
  have first := (sound.locks x a).mpr mine
  rw [(sound.locks x b).mpr other] at first
  exact ne (Option.some.inj first).symm

theorem Sound.waits (sound : e.Sound) {m : Commit}
    (mem : m ∈ e.channel.filterMap Message.commit? ++ e.authority.commits) :
    e.agent m.account = .waiting m.command :=
  (sound.outstanding m.command (List.mem_map_of_mem mem)).1

/-- Decisions that are not applied are among those to be responded to. -/
theorem unapplied_subset (fitting : e.authority.Fitting) :
    e.unapplied ⊆ e.channel.filterMap Message.commit? ++ e.authority.commits := by
  refine List.append_subset.mpr ⟨List.subset_append_left _ _, fun m mem => ?_⟩
  refine List.mem_append_right _ ?_
  cases authority : e.authority with
  | collecting group deferred =>
    rw [authority] at mem
    exact mem
  | sorting rest unique repeats deferred =>
    rw [authority] at mem
    exact List.mem_append_left _ mem
  | applying rest unique repeats deferred =>
    rw [authority] at mem fitting
    exact List.mem_append_left _ (fitting.subset mem)
  | _ =>
    rw [authority] at mem
    cases mem

namespace Serializes

theorem start (log : σ) : Serializes ({ log := log } : Engine σ) where
  sane := rfl
  store := rfl
  state := rfl
  sequence := rfl
  known := by simp
  agents _ := trivial
  unapplied := by simp [Engine.unapplied, Authority.unapplied]
  authority := trivial
  answered := by simp
  numbered := trivial
  appended := rfl

/-- An agent goes on, with the responses to the others left alone. -/
theorem moves (s : e.Serializes) {response : AccountID → Option Outcome}
    (others : ∀ b, b ≠ a → response b = e.response b)
    (serves : new.Serves e.store (e.state a) e.committed (response a)) (b : AccountID) :
    (update e.agent a new b).Serves e.store (e.state b) e.committed (response b) := by
  by_cases here : b = a
  · rw [here, update_self]
    exact serves
  · rw [update_of_ne here, others b here]
    exact s.agents b

/-- The authority responds with the result of the serial execution. -/
theorem responds (s : e.Serializes) {m : Commit} {o : Outcome}
    (waits : e.agent m.account = .waiting m.command) (good : Good e.committed m.command o)
    (b : AccountID) :
    (e.agent b).Serves e.store (e.state b) e.committed
      (update e.response m.account (some o) b) := by
  by_cases here : b = m.account
  · rw [here, update_self, waits]
    rintro p ⟨⟩
    exact good
  · rw [update_of_ne here]
    exact s.agents b

theorem commandID (s : e.Serializes) {m : Commit} (mem : m ∈ e.unapplied) :
    m.record.commandID = m.command.id :=
  (s.unapplied m mem).1.record.commandID

theorem unknown (s : e.Serializes) (sound : e.Sound) (fitting : e.authority.Fitting)
    (tracked : e.Tracked) {m : Commit} (mem : m ∈ e.unapplied) :
    m.record.commandID ∉ e.dedupe.results := by
  intro seen
  rw [s.commandID mem] at seen
  obtain ⟨c, committed, same⟩ := List.mem_map.mp (s.known _ seen)
  have waits := sound.waits (unapplied_subset fitting mem)
  have mine := (sound.command m.account m.command (by simp [waits, Agent.command])).2.2
  have eq := tracked.eq_of_id (tracked.submitted_past sound (tracked.past c committed)) mine same
  exact (s.unapplied m mem).2 (eq ▸ committed)

theorem not_again (s : e.Serializes) (sound : e.Sound) (fitting : e.authority.Fitting)
    (tracked : e.Tracked) {m : Commit} {rest unique : List Commit}
    {repeats : List (Commit × Commit)} {deferred : List Control}
    (sorting : e.authority = .sorting (m :: rest) unique repeats deferred) (d : Commit)
    (mem : d ∈ unique) : d.record.commandID ≠ m.record.commandID := by
  intro same
  have listed (x : Commit) (mem : x ∈ m :: rest ++ unique) : x ∈ e.unapplied := by
    rw [Engine.unapplied, sorting]
    exact List.mem_append_right _ mem
  have first := listed m (by simp)
  have second := listed d (by simp [mem])
  rw [s.commandID first, s.commandID second] at same
  have known (x : Commit) (mem : x ∈ e.unapplied) : x.command ∈ e.submitted :=
    (sound.command x.account x.command
      (by simp [sound.waits (unapplied_subset fitting mem), Agent.command])).2.2
  have eq := tracked.eq_of_id (known d second) (known m first) same
  have distinct := sound.distinct
  simp only [Engine.outstanding, sorting, Authority.commits, List.map_append, List.map_cons,
    List.cons_append] at distinct
  have apart := (List.nodup_cons.mp (List.nodup_append.mp distinct).2.1).1
  exact apart (by
    simp only [List.mem_append, List.mem_map]
    exact .inl (.inr ⟨d.command, ⟨d, mem, rfl⟩, congrArg Command.account eq⟩))

theorem apply (s : e.Serializes) (sound : e.Sound) (fitting : e.authority.Fitting) {m : Commit}
    {rest unique : List Commit} {repeats : List (Commit × Commit)} {deferred : List Control}
    (applying : e.authority = .applying (m :: rest) unique repeats deferred) :
    Serializes { e.apply cfg m with authority := .applying rest unique repeats deferred } := by
  have first : m ∈ e.unapplied := by simp [Engine.unapplied, applying, Authority.unapplied]
  obtain ⟨fits, -⟩ := s.unapplied m first
  have waits := sound.waits (unapplied_subset fitting first)
  have serves := s.authority
  rw [applying] at serves
  obtain ⟨single, ⟨number, numbers⟩, done, split, settles⟩ := serves
  have number : m.record.sequence = (serial e.committed).sequence + 1 := by
    rw [number, sequence_serial, UInt64.ofNat_add]
    rfl
  have execution : serial (e.committed ++ [m.command]) =
      { store := e.store.apply m.record
        state := update e.state m.account m.next
        sequence := m.record.sequence
        results := (serial e.committed).results ++ [m.record.result] } := by
    rw [serial_concat, s.store, s.state]
    exact Commit.Fits.execute (s.store ▸ s.state ▸ fits) number
  have result : (m.command, m.record.result) ∈ settled (e.committed ++ [m.command]) := by
    obtain ⟨r, results, eq⟩ := settled_concat e.committed m.command
    rw [execution] at results
    obtain rfl : m.record.result = r := by simpa using results
    simp [eq]
  -- The tokens of the decision are apart from those of any other agent.
  have keeps {d : Commit} (fits' : d.Fits e.store (e.state d.account))
      (other : d.account ≠ m.account)
      (held : (e.agent d.account).held = tokensFor d.command) :
      d.Fits (e.store.apply m.record) (update e.state m.account m.next d.account) := by
    rw [update_of_ne other]
    refine fits'.agrees (fits.apply fun x mine theirs => ?_)
    refine sound.apart other (held ▸ mine) ?_
    rw [waits]
    exact theirs
  have distinct :
      ((e.channel.filterMap Message.commit? ++ m :: rest).map Commit.account).Nodup := by
    rw [applying] at fitting
    have part : (e.channel.filterMap Message.commit? ++ m :: rest).Sublist
        (e.channel.filterMap Message.commit? ++ e.authority.commits) := by
      rw [applying]
      exact (fitting.sublist.trans (List.sublist_append_left _ _)).append_left _
    have all := sound.distinct
    rw [Engine.outstanding, List.map_map] at all
    exact all.sublist (part.map _)
  rw [List.map_append, List.map_cons, List.nodup_middle, List.nodup_cons, ← List.map_append]
    at distinct
  have others (d : Commit) (mem : d ∈ e.channel.filterMap Message.commit? ++ rest) :
      d.account ≠ m.account := fun same => distinct.1 (same ▸ List.mem_map_of_mem mem)
  exact
    { sane := s.sane
      store := by rw [Engine.apply, execution]
      state := by rw [Engine.apply, execution]
      sequence := by
        simp only [Engine.apply, List.length_append, List.length_singleton]
        rw [number, sequence_serial, UInt64.ofNat_add]
        rfl
      known := fun id mem => by
        simp only [Engine.apply, List.map_append, List.mem_append]
        rcases Dedupe.mem_rememberResult mem with rfl | mem
        · exact .inr (by simp [s.commandID first])
        · exact .inl (s.known id mem)
      agents := fun b => by
        have serves := s.agents b
        simp only [Engine.apply]
        cases agent : e.agent b with
        | sending d =>
          rw [agent] at serves
          have here : d.account = b :=
            (sound.command b d.command (by simp [agent, Agent.command])).2.1
          subst here
          refine keeps serves (fun same => ?_) (by rw [agent]; rfl)
          rw [same, waits] at agent
          cases agent
        | waiting c =>
          rw [agent] at serves
          exact fun o mem => (serves o mem).concat _
        | releasing c o held =>
          rw [agent] at serves
          exact Good.concat serves _
        | _ => trivial
      unapplied := fun d mem => by
        have other := others d mem
        have listed : d ∈ e.unapplied := by
          rw [Engine.unapplied, applying]
          exact (List.mem_append.mp mem).elim (List.mem_append_left _)
            fun mem => List.mem_append_right _ (List.mem_cons_of_mem _ mem)
        obtain ⟨fits', new⟩ := s.unapplied d listed
        refine ⟨keeps fits' other ?_, ?_⟩
        · rw [sound.waits (unapplied_subset fitting listed)]
          rfl
        · intro mem
          rcases List.mem_append.mp mem with mem | mem
          · exact new mem
          · exact other (congrArg Command.account (List.mem_singleton.mp mem))
      authority := by
        refine ⟨single, ?_, done ++ [m], by simp [split], fun d mem => ?_⟩
        · simpa [Engine.apply] using numbers
        · rcases List.mem_append.mp mem with mem | mem
          · exact mem_settled_concat _ (settles d mem)
          · rw [List.mem_singleton.mp mem]
            exact result
      answered := fun p mem => (s.answered p mem).concat _
      numbered := s.numbered
      appended := by
        have appended := s.appended
        rw [applying] at appended
        simp only [Engine.apply, Authority.logged, List.length_cons, List.length_append,
          List.length_nil] at appended ⊢
        omega }

/-- Decisions stay as they are while the authority only moves them. -/
theorem unapplied_of_subset (s : e.Serializes) {list : List Commit} (subset : list ⊆ e.unapplied)
    (m : Commit) (mem : m ∈ list) :
    m.Fits e.store (e.state m.account) ∧ m.command ∉ e.committed :=
  s.unapplied m (subset mem)

/-- The authority goes on with no more decisions than it had. -/
theorem turns (s : e.Serializes) (new : Authority)
    (unapplied : new.unapplied ⊆ e.authority.unapplied)
    (logged : new.logged.length = e.authority.logged.length) :
    (∀ m ∈ e.channel.filterMap Message.commit? ++ new.unapplied,
      m.Fits e.store (e.state m.account) ∧ m.command ∉ e.committed) ∧
      e.appended.length = e.committed.length + new.logged.length := by
  refine ⟨s.unapplied_of_subset fun m mem => ?_, logged ▸ s.appended⟩
  exact (List.mem_append.mp mem).elim (List.mem_append_left _)
    fun mem => List.mem_append_right _ (unapplied mem)

theorem step (s : e.Serializes) (sound : e.Sound) (fitting : e.authority.Fitting)
    (tracked : e.Tracked) (next : Step cfg log e event t) (orderly : e.Orderly event) :
    t.Serializes := by
  have same (b a : AccountID) (_ : b ≠ a) : e.response b = e.response b := rfl
  cases next with
  | take idle queued => exact { s with agents := s.moves (same · _) trivial }
  | lock acquiring free => exact { s with agents := s.moves (same · _) trivial }
  | @decide a c held acquired =>
    exact { s with agents := s.moves (same · _) (Commit.Fits.refl e.store (e.state a) c) }
  | @send a m sending room =>
    have serves := s.agents a
    have here : m.account = a :=
      (sound.command a m.command (by simp [sending, Agent.command])).2.1
    rw [sending] at serves
    have quiet : Agent.Serves e.store (e.state a) e.committed (e.response a)
        (.waiting m.command) := by
      rw [sound.silent sending]
      rintro o ⟨⟩
    refine { s with agents := s.moves (same · _) quiet, unapplied := fun d mem => ?_ }
    simp only [Engine.unapplied, goTo, List.filterMap_append, List.append_assoc,
      List.mem_append] at mem
    rcases mem with mem | mem | mem
    · exact s.unapplied d (List.mem_append_left _ mem)
    · obtain rfl : d = m := by simpa [Message.commit?] using mem
      exact ⟨here ▸ serves, tracked.not_committed sound sending⟩
    · exact s.unapplied d (List.mem_append_right _ mem)
  | @resume a c outcome waits given =>
    have serves := s.agents a
    rw [waits] at serves
    exact { s with
      agents := s.moves (fun b other => update_of_ne other _ _) (serves outcome given) }
  | @unlock a x c outcome held releasing =>
    have serves := s.agents a
    rw [releasing] at serves
    exact { s with agents := s.moves (same · _) serves }
  | @answer a c outcome released =>
    have serves := s.agents a
    rw [released] at serves
    refine { s with agents := s.moves (same · _) trivial, answered := fun p mem => ?_ }
    rcases List.mem_append.mp mem with mem | mem
    · exact s.answered p mem
    · rw [List.mem_singleton.mp mem]
      exact serves
  | @receive m rest idle queued =>
    refine { s with
      unapplied := s.unapplied_of_subset ?_, authority := trivial
      appended := by simpa [idle, Authority.logged] using s.appended }
    intro d mem
    simp only [Engine.unapplied, queued, idle, Authority.unapplied, List.mem_append,
      List.filterMap_cons, Message.commit?] at mem ⊢
    simpa [or_comm] using mem
  | @control k rest idle queued =>
    have none : Authority.unapplied (if k = .close then .stopped else .receiving) = [] := by
      split <;> rfl
    refine { s with
      unapplied := s.unapplied_of_subset ?_
      authority := by simp only [Engine.handle]; split <;> trivial
      appended := ?_ }
    · intro d mem
      simp only [Engine.unapplied, none, List.append_nil] at mem
      rw [Engine.unapplied, queued]
      exact List.mem_append_left _ mem
    · have appended := s.appended
      rw [idle] at appended
      simp only [Engine.handle]
      split <;> exact appended
  | @collect m rest group deferred collecting small queued =>
    refine { s with
      unapplied := s.unapplied_of_subset ?_, authority := trivial
      appended := by simpa [collecting, Authority.logged] using s.appended }
    intro d mem
    simp only [Engine.unapplied, queued, collecting, Authority.unapplied, List.mem_append,
      List.filterMap_cons, Message.commit?, List.mem_cons] at mem ⊢
    tauto
  | @defer k rest group deferred collecting small queued =>
    refine { s with
      unapplied := s.unapplied_of_subset ?_, authority := trivial
      appended := by simpa [collecting, Authority.logged] using s.appended }
    intro d mem
    simpa [Engine.unapplied, queued, collecting, Authority.unapplied, Message.commit?] using mem
  | @cut group deferred collecting done sane =>
    obtain ⟨unapplied, appended⟩ := s.turns (.sorting group [] [] deferred)
      (by simp [collecting, Authority.unapplied]) (by simp [collecting, Authority.logged])
    exact { s with unapplied := unapplied, authority := ⟨rfl, trivial⟩, appended := appended }
  | cutPoisoned collecting done poisoned =>
    rw [s.sane] at poisoned
    cases poisoned
  | @known m rest unique repeats deferred prior sorting seen =>
    have mem : m ∈ e.unapplied := by simp [Engine.unapplied, sorting, Authority.unapplied]
    refine absurd ?_ (s.unknown sound fitting tracked mem)
    exact Std.ExtTreeMap.mem_iff_isSome_getElem?.mpr (by simp [seen])
  | @again m original rest unique repeats deferred sorting unknown seen =>
    have same := List.find?_some seen
    exact absurd (of_decide_eq_true same)
      (s.not_again sound fitting tracked sorting original (List.mem_of_find?_eq_some seen))
  | @number m rest unique repeats deferred sorting unknown new =>
    have serves := s.authority
    rw [sorting] at serves
    refine { s with
      unapplied := fun d mem => ?_, authority := ⟨serves.1, ?_⟩
      appended := by simpa [sorting, Authority.logged] using s.appended }
    · simp only [Engine.unapplied, Authority.unapplied, List.mem_append, List.mem_singleton] at mem
      have listed (x : Commit) (mem : x ∈ e.channel.filterMap Message.commit? ∨
          x ∈ m :: rest ∨ x ∈ unique) : x ∈ e.unapplied := by
        rw [Engine.unapplied, sorting]
        simpa only [Authority.unapplied, List.mem_append] using mem
      rcases mem with mem | mem | mem | rfl
      · exact s.unapplied d (listed d (.inl mem))
      · exact s.unapplied d (listed d (.inr (.inl (List.mem_cons_of_mem _ mem))))
      · exact s.unapplied d (listed d (.inr (.inr mem)))
      · obtain ⟨fits, new⟩ := s.unapplied m (listed m (.inr (.inl (List.mem_cons_self ..))))
        exact ⟨fits.number _, new⟩
    · rw [List.map_append, numbered_append]
      refine ⟨serves.2, ?_, trivial⟩
      simp only [Commit.number, List.length_map, s.sequence]
      rw [Nat.add_right_comm, UInt64.ofNat_add, UInt64.ofNat_add]
      rfl
  | @nothing _ left here | @responded left here | @handle _ left here =>
    obtain ⟨unapplied, appended⟩ := s.turns (.controlling left)
      (by simp [Authority.unapplied]) (by simp [here, Authority.logged])
    exact { s with unapplied := unapplied, authority := trivial, appended := appended }
  | @append unique repeats deferred after sorted nonempty appends =>
    have serves := s.authority
    have appended := s.appended
    rw [sorted] at serves appended
    simp only [Authority.logged, List.length_nil, Nat.add_zero] at appended
    refine { s with
      unapplied := s.unapplied_of_subset ?_
      authority := ⟨serves.1, serves.2, [], rfl, by simp⟩
      numbered := ?_
      appended := by simp [Authority.logged, appended] }
    · intro d mem
      simpa [Engine.unapplied, sorted, Authority.unapplied] using mem
    · rw [numbered_append]
      exact ⟨s.numbered, by rw [appended, Nat.add_comm]; exact serves.2⟩
  | fail => exact orderly.elim
  | apply applying => exact s.apply sound fitting applying
  | @applied unique repeats deferred applied =>
    obtain ⟨unapplied, appended⟩ := s.turns (.responding (replies unique repeats) deferred)
      (by simp [Authority.unapplied]) (by simp [applied, Authority.logged])
    have serves := s.authority
    rw [applied] at serves
    obtain ⟨single, -, done, split, settles⟩ := serves
    refine { s with unapplied := unapplied, authority := fun p mem => ?_, appended := appended }
    rw [replies, single, List.map_nil, List.append_nil, split, List.append_nil] at mem
    obtain ⟨m, listed, rfl⟩ := List.mem_map.mp mem
    exact ⟨m.record.result, rfl, settles m listed⟩
  | @respond m outcome rest deferred responding =>
    obtain ⟨unapplied, appended⟩ := s.turns (.responding rest deferred)
      (by simp [Authority.unapplied]) (by simp [responding, Authority.logged])
    have serves := s.authority
    rw [responding] at serves
    have waits : e.agent m.account = .waiting m.command :=
      sound.waits (by simp [responding, Authority.commits])
    exact { s with
      agents := s.responds waits (serves _ (List.mem_cons_self ..))
      unapplied := unapplied
      authority := fun p mem => serves p (List.mem_cons_of_mem _ mem)
      appended := appended }
  | handled controlled =>
    obtain ⟨unapplied, appended⟩ := s.turns .receiving
      (by simp [Authority.unapplied]) (by simp [controlled, Authority.logged])
    exact { s with unapplied := unapplied, authority := trivial, appended := appended }
  | post | snapshot =>
    refine { s with unapplied := s.unapplied_of_subset ?_ }
    intro d mem
    simpa [Engine.unapplied, Message.commit?] using mem
  | _ => exact { s with }

end Serializes

/-- In every orderly run the engine is in the state of a serial execution. -/
theorem Reach.serializes {start : σ} (reach : Reach cfg log Orderly start e) :
    e.Tracked ∧ e.Serializes := by
  induction reach with
  | start => exact ⟨.start _, .start _⟩
  | step before next allows ih =>
    obtain ⟨sound, fitting⟩ := before.sound
    exact ⟨next.tracked sound fitting allows ih.1, ih.2.step sound fitting ih.1 next allows⟩

/-- The results of a serial execution are numbered in its order. -/
theorem sequence_results (commands : List Command) :
    (serial commands).results.map Result.sequence =
      (List.range' 1 commands.length).map UInt64.ofNat := by
  induction commands using List.reverseRecOn with
  | nil => rfl
  | append_singleton commands c ih =>
    rw [serial_concat, Serial.execute, List.map_append, ih, List.length_append,
      List.length_singleton, List.range'_1_concat, List.map_append, sequence_serial]
    simp [decisionRecord, UInt64.ofNat_add, Nat.add_comm 1]

/-- Whatever the interleaving, the engine numbers what it commits 1, 2, and so on, and its store,
its agents' states and its answers are those of executing the committed commands one after the
other; and no agents wait for each other's tokens in a circle. -/
theorem engine_serializable {start : σ} (reach : Reach cfg log Orderly start e) :
    e.sequence = UInt64.ofNat e.committed.length ∧
      Numbered 1 e.appended ∧
      (serial e.committed).results.map Result.sequence =
        (List.range' 1 e.committed.length).map UInt64.ofNat ∧
      e.store = (serial e.committed).store ∧
      e.state = (serial e.committed).state ∧
      (∀ c o, (c, o) ∈ e.answered →
        ∃ r, o = .ok r ∧ (c, r) ∈ e.committed.zip (serial e.committed).results) ∧
      ∀ a, ¬ Relation.TransGen (WaitsFor (fun a x => e.locks x = some a) e.Wants) a a := by
  obtain ⟨-, s⟩ := reach.serializes
  exact ⟨s.sequence, s.numbered, sequence_results _, s.store, s.state,
    fun c o mem => s.answered (c, o) mem, reach.sound.1.no_circle⟩

def memoryLog : GroupLog (List LogRecord) where
  appendGroup taken records := .ok (taken ++ records)
  close := id
  snapshotAtFrontier := id

def firstCommand : Command := { id := ascii "a", kind := .create, account := 1, amount := 5 }

def firstCommit : Commit := processGoM1 {} {} firstCommand

def secondCommand : Command := { id := ascii "b", kind := .create, account := 2, amount := 7 }

def secondCommit : Commit := processGoM1 {} {} secondCommand

def pairConfig : EngineConfig := openM1Engine 1 .batchSync 2 1 0 2

/-- Two agents have decided on the first commands of two accounts. -/
def bothDecided (start : σ) : Engine σ where
  log := start
  submitted := [firstCommand, secondCommand]
  locks := update (update (fun _ => none) 1 (some 1)) 2 (some 2)
  agent := update (update (fun _ => .idle) 1 (.sending firstCommit)) 2 (.sending secondCommit)

theorem bothDecided_reach {start : σ} {allowed : Engine σ → Event → Prop}
    (enter : ∀ e c, c.id ∉ e.submitted.map Command.id → allowed e (.enter c))
    (own : ∀ e, allowed e .internal) : Reach pairConfig log allowed start (bothDecided start) := by
  have opened : Reach pairConfig log allowed start _ := .start
  have entered :=
    (opened.step (.enter firstCommand (by decide +kernel) rfl) (enter _ _ (by simp))).step
    (.enter secondCommand (by decide +kernel) rfl)
    (enter _ _ (by simp [firstCommand, secondCommand]; decide))
  have queued := (entered.step
    (.enqueue (show _ = [] ++ firstCommand :: [secondCommand] from rfl) Nat.one_pos) (own _)).step
    (.enqueue (show _ = [] ++ secondCommand :: [] from rfl) Nat.one_pos) (own _)
  have taken := (queued.step (.take (a := 1) rfl (show _ = firstCommand :: [] from rfl))
    (own _)).step (.take (a := 2) rfl (show _ = secondCommand :: [] from rfl)) (own _)
  have locked := (taken.step
    (.lock (a := 1) (show _ = Agent.acquiring firstCommand [] [1] from rfl) rfl) (own _)).step
    (.lock (a := 2) (show _ = Agent.acquiring secondCommand [] [2] from rfl) rfl) (own _)
  have decided := (locked.step
    (.decide (a := 1) (show _ = Agent.acquiring firstCommand [1] [] from rfl)) (own _)).step
    (.decide (a := 2) (show _ = Agent.acquiring secondCommand [2] [] from rfl)) (own _)
  convert decided using 1
  simp only [bothDecided, goTo, Engine.mk.injEq, true_and, and_true]
  refine ⟨rfl, rfl, ?_, ?_⟩ <;> funext a <;> by_cases one : a = 1 <;> by_cases two : a = 2 <;>
    simp [one, two, firstCommand, secondCommand, firstCommit, secondCommit, update]

/-- The two agents send their decisions, which are committed in one group, and both answer. -/
theorem paired_run {allowed : Engine (List LogRecord) → Event → Prop}
    (enter : ∀ e c, c.id ∉ e.submitted.map Command.id → allowed e (.enter c))
    (own : ∀ e, allowed e .internal) :
    ∃ e : Engine (List LogRecord), Reach pairConfig memoryLog allowed [] e ∧
      e.submitted = [firstCommand, secondCommand] ∧ e.committed = [firstCommand, secondCommand] ∧
      e.answered = [(secondCommand, .ok (secondCommit.number 2).record.result),
        (firstCommand, .ok (firstCommit.number 1).record.result)] ∧
      e.closed = false ∧ e.channel = [] ∧ e.authority = .receiving ∧ e.entering = [] ∧
      (∀ a, e.mailbox a = []) ∧ ∀ a, e.agent a = .idle := by
  have step {e t : Engine (List LogRecord)} (reach : Reach pairConfig memoryLog allowed [] e)
      (next : Step pairConfig memoryLog e .internal t) : Reach pairConfig memoryLog allowed [] t :=
    reach.step next (own e)
  have sent := step (step (bothDecided_reach enter own)
    (.send (a := 1) (show _ = Agent.sending firstCommit from rfl) (by decide)))
    (.send (a := 2) (show _ = Agent.sending secondCommit from rfl) (by decide))
  have collected := step (step sent
    (.receive rfl (show _ = [Message.commit firstCommit, .commit secondCommit] from rfl)))
    (.collect (show _ = Authority.collecting [firstCommit] [] from rfl) (by decide)
      (show _ = [Message.commit secondCommit] from rfl))
  have cut := step collected
    (.cut (show _ = Authority.collecting [firstCommit, secondCommit] [] from rfl)
      (.inl (by decide)) rfl)
  have numbered := step (step cut
    (.number (show _ = Authority.sorting [firstCommit, secondCommit] [] [] [] from rfl) rfl rfl))
    (.number (show _ = Authority.sorting [secondCommit] [firstCommit.number 1] [] [] from rfl) rfl
      (by decide +kernel))
  have appended := step numbered (.append (show _ = Authority.sorting []
    [firstCommit.number 1, secondCommit.number 2] [] [] from rfl) (by simp) rfl)
  have applied := step (step (step appended (.apply rfl)) (.apply rfl)) (.applied rfl)
  have responded := step (step (step (step applied (.respond rfl)) (.respond rfl)) (.responded rfl))
    (.handled rfl)
  have second := step (step (step responded
    (.resume (a := 2) (show _ = Agent.waiting secondCommand from rfl)
      (show _ = some (.ok (secondCommit.number 2).record.result) from rfl)))
    (.unlock (a := 2) (show _ = Agent.releasing secondCommand
      (.ok (secondCommit.number 2).record.result) ([] ++ [2]) from rfl))) (.answer (a := 2) rfl)
  have first := step (step (step second
    (.resume (a := 1) (show _ = Agent.waiting firstCommand from rfl)
      (show _ = some (.ok (firstCommit.number 1).record.result) from rfl)))
    (.unlock (a := 1) (show _ = Agent.releasing firstCommand
      (.ok (firstCommit.number 1).record.result) ([] ++ [1]) from rfl))) (.answer (a := 1) rfl)
  refine ⟨_, first, rfl, rfl, rfl, rfl, rfl, rfl, rfl, fun a => rfl, fun a => ?_⟩
  by_cases one : a = 1 <;> by_cases two : a = 2 <;>
    simp [goTo, Engine.finish, Engine.respond, Engine.apply, one, two, bothDecided]

theorem created_serial : ∃ e : Engine (List LogRecord),
    Reach pairConfig memoryLog Orderly [] e ∧ e.answered.length = 2 ∧
      e.store = (serial [firstCommand, secondCommand]).store ∧
      e.state = (serial [firstCommand, secondCommand]).state ∧ Numbered 1 e.appended := by
  obtain ⟨e, reach, -, committed, answered, -⟩ :=
    @paired_run Orderly (fun _ _ => id) fun _ => trivial
  obtain ⟨-, numbered, -, store, state, -⟩ := engine_serializable reach
  rw [committed] at store state
  exact ⟨e, reach, by rw [answered]; rfl, store, state, numbered⟩

end Engine

end OctetDB.Research
