import OctetDB.Trust.Agent
import OctetDB.Trust.Books

/-!
# Settlement under any order of messages

Agents are stepped, woken, migrated and restarted, messages are delivered, lost and doubled, and
databases forget the results of commands, all in any order. Whatever happens, money is neither made
nor lost.

What ties the two authorities of a transfer together is that a commitment at the receiver always
comes after one at the sender: an agent that has passed the commitment of the sender, a message
that asks the receiver to commit and a known result that says "committed" are each evidence that
the sender has committed, and a sender never takes that back.
-/

namespace OctetDB.Trust

open Function (update update_of_ne update_self)

/-- A simulation: what the agents share, the agents, and the messages that are under way, in
whichever queue. -/
structure State where
  world : World
  agents : String → Option TransactionAgent
  flight : List Envelope

inductive Step (cfg : Config) : State → State → Prop
  | turn {s : State} {id : String} {a : TransactionAgent} {round : Int} {r : Handled}
      (owned : s.agents id = some a) (running : a.phase.terminal = false)
      (result : step cfg s.world a round = .ok r) :
      Step cfg s
        { world := r.world
          agents := update s.agents id (some r.agent)
          flight := s.flight ++ r.sent }
  | deliver {s : State} {before after : List Envelope} {e : Envelope} {a : TransactionAgent}
      {round : Int} (flight : s.flight = before ++ e :: after)
      (owned : s.agents e.transferID = some a) (running : a.phase.terminal = false) :
      Step cfg s
        { world := (deliver s.world a e round).world
          agents := update s.agents e.transferID (some (deliver s.world a e round).agent)
          flight := before ++ after ++ (deliver s.world a e round).sent }
  | drop {s : State} {before after : List Envelope} {e : Envelope}
      (flight : s.flight = before ++ e :: after) : Step cfg s { s with flight := before ++ after }
  | duplicate {s : State} {e : Envelope} (mem : e ∈ s.flight) :
      Step cfg s { s with flight := e :: s.flight }
  | wake {s : State} {id : String} {a a' : TransactionAgent} {round : Int}
      (owned : s.agents id = some a) (woken : a.wakeDeadline cfg round = some a') :
      Step cfg s { s with agents := update s.agents id (some a') }
  /-- An authority comes back: all agents of its open transfers have to find out how far they
  are. -/
  | restart {s : State} (name : String) :
      Step cfg s
        { s with
          agents := fun id => (s.agents id).map fun a =>
            if (s.world.bsos name).pending id ∧ a.phase.terminal = false then
              { a with phase := .reconcile }
            else a }
  /-- The worker of an agent dies. Messages in its queue are lost, which are drops. -/
  | migrate {s : State} {id : String} {a : TransactionAgent} (owned : s.agents id = some a) :
      Step cfg s { s with agents := update s.agents id (some a.migrate) }
  /-- The result of a command is no longer known. -/
  | forget {s : State} (name : String) (command : Command) :
      Step cfg s
        { s with
          world :=
            { s.world with
              bsos := update s.world.bsos name
                { s.world.bsos name with
                  decided := update (s.world.bsos name).decided command none } } }

/-- Before the first round: nothing has been recorded or sent, and an agent stands for each
transfer. Policies, providers and the names of the open authorities are arbitrary. -/
structure Begins (W : Workload) (initial : String → Int) (s : State) : Prop where
  fresh : ∃ policies : String → TrustPolicy, s.world.bsos = fun name =>
    { id := name, balance := initial name, trustPolicy := policies name }
  agents : ∀ id a, s.agents id = some a → ∃ i, (W.attempt i).id = id ∧
    a = TransactionAgent.start (W.attempt i)
  quiet : s.flight = []

inductive Reach (cfg : Config) (W : Workload) (initial : String → Int) : State → Prop
  | start {s : State} (begins : Begins W initial s) : Reach cfg W initial s
  | next {s t : State} (reach : Reach cfg W initial s) (step : Step cfg s t) :
      Reach cfg W initial t

/-! ## What is evidence of a payment -/

/-- The phases that an agent only enters when the sender has committed. -/
def AgentPhase.Committed (phase : AgentPhase) : Prop :=
  phase = .commitReceiver ∨ phase = .awaitAcknowledge

/-- The results that are only given when the sender has committed. -/
def TransferState.Committed (state : TransferState) : Prop :=
  state = .committed ∨ state = .acknowledged

/-- The command with which the sender of a transfer commits it. -/
def Attempt.acceptance (a : Attempt) : Command := .message a.id .accept a.toBSO

/-- Every known result of a commitment at a sender is evidence of the payment. -/
def Known (W : Workload) (bsos : String → BSO) : Prop :=
  ∀ i r, (bsos (W.attempt i).fromBSO).decided (W.attempt i).acceptance = some r → r.Committed →
    Paid bsos (W.attempt i)

structure Inv (W : Workload) (initial : String → Int) (s : State) : Prop where
  ledger : Ledger W initial s.world.bsos
  known : Known W s.world.bsos
  carries : ∀ id a, s.agents id = some a → ∃ i, (W.attempt i).id = id ∧ a.attempt = W.attempt i
  waiting : ∀ id a, s.agents id = some a → a.phase.Committed → Paid s.world.bsos a.attempt
  about : ∀ e ∈ s.flight, ∃ i, e.About (W.attempt i) ∧
    (e.kind = .commit → Paid s.world.bsos (W.attempt i))

/-- What handling a step or a message of an agent keeps. -/
structure Handled.Keeps (W : Workload) (initial : String → Int) (w : World) (i : Fin W.count)
    (r : Handled) : Prop where
  ledger : Ledger W initial r.world.bsos
  known : Known W r.world.bsos
  mono : ∀ a, Paid w.bsos a → Paid r.world.bsos a
  carries : r.agent.attempt = W.attempt i
  waiting : r.agent.phase.Committed → Paid r.world.bsos (W.attempt i)
  about : ∀ e ∈ r.sent, e.About (W.attempt i) ∧
    (e.kind = .commit → Paid r.world.bsos (W.attempt i))
  apart : ∀ id, id ≠ (W.attempt i).id → ∀ name, (w.bsos name).Apart id (r.world.bsos name)
  active : r.world.activeIDs = w.activeIDs

section Operations

variable {W : Workload} {initial : String → Int} {w : World} {i : Fin W.count} {b' : BSO}
  {bsos : String → BSO}

/-- An operation on the sender never takes a commitment back. -/
theorem Paid.sender {a c : Attempt} (paid : Paid bsos c)
    (effect : (bsos a.fromBSO).SenderEffect a b') :
    Paid (update bsos a.fromBSO b') c := by
  obtain ⟨u, sent, state⟩ := paid
  by_cases same : c.fromBSO = a.fromBSO
  · rw [same] at sent
    -- Only the record of the transfer itself changes.
    have other : ∀ t : Transfer, c.id ≠ a.id →
        update (bsos a.fromBSO).outgoing a.id (some t) c.id = some u := by
      intro t ne
      rw [update_of_ne ne, sent]
    unfold Paid
    rw [same, update_self]
    by_cases own : c.id = a.id
    · rw [own] at sent ⊢
      cases effect with
      | same d => exact ⟨u, sent, state⟩
      | refuse d new | hold d new => simp [new] at sent
      | debit d found reserved | release d found reserved =>
        rw [found, Option.some.injEq] at sent
        simp [← sent, reserved] at state
      | @acknowledge d t t' found committed record acknowledged =>
        exact ⟨t', update_self .., .inr acknowledged⟩
    · cases effect with
      | same d => exact ⟨u, sent, state⟩
      | refuse | hold | debit | release | acknowledge => exact ⟨u, other _ own, state⟩
  · exact ⟨u, by rw [update_of_ne same, sent], state⟩

theorem Paid.receiver {a c : Attempt} (paid : Paid bsos c)
    (effect : (bsos a.toBSO).ReceiverEffect a b') : Paid (update bsos a.toBSO b') c := by
  obtain ⟨u, sent, state⟩ := paid
  refine ⟨u, ?_, state⟩
  by_cases same : c.fromBSO = a.toBSO
  · rw [same] at sent ⊢
    rw [update_self]
    cases effect <;> exact sent
  · rw [update_of_ne same, sent]

/-- Commitments that are known stay evidence if an operation makes known no others than those that
it carried out. -/
theorem Known.update (known : Known W bsos) {name : String}
    (mono : ∀ a, Paid bsos a → Paid (update bsos name b') a)
    (results : ∀ j r, b'.decided (W.attempt j).acceptance = some r → r.Committed →
      (bsos name).decided (W.attempt j).acceptance = some r ∨
        Paid (update bsos name b') (W.attempt j)) :
    Known W (update bsos name b') := by
  intro j r decided committed
  by_cases same : (W.attempt j).fromBSO = name
  · rw [same, update_self] at decided
    obtain before | paid := results j r decided committed
    · exact mono _ (known j r (same ▸ before) committed)
    · exact paid
  · rw [update_of_ne same] at decided
    exact mono _ (known j r decided committed)

/-- All other authorities are left alone. -/
theorem apart_update {id name : String} (apart : (bsos name).Apart id b') (other : String) :
    (bsos other).Apart id (update bsos name b' other) := by
  by_cases same : other = name
  · rw [same, update_self]
    exact apart
  · rw [update_of_ne same]
    exact ⟨rfl, rfl, rfl, fun _ _ _ known => known⟩

/-- An operation on the sender, for an agent that carries the transfer on. -/
theorem keeps_sender (ledger : Ledger W initial w.bsos) (known : Known W w.bsos)
    {op : BSO → BSO × TransferState} {agent : TransactionAgent} {a : Attempt}
    (own : a = W.attempt i) (carries : agent.attempt = a)
    (effect : (w.bsos a.fromBSO).SenderEffect a (op (w.bsos a.fromBSO)).1)
    (results : ∀ c r, (op (w.bsos a.fromBSO)).1.decided c = some r →
      (w.bsos a.fromBSO).decided c = some r ∨ c.transferID = a.id ∧
        (c = a.acceptance → r.Committed → Paid (w.on a.fromBSO op).1.bsos a))
    (waiting : agent.phase.Committed → Paid (w.on a.fromBSO op).1.bsos a) :
    Handled.Keeps W initial w i { world := (w.on a.fromBSO op).1, agent := agent } := by
  subst own
  refine
    { ledger := ledger.sender effect
      known := known.update (fun _ paid => paid.sender effect) fun j r decided committed => ?_
      mono := fun _ paid => paid.sender effect
      carries := carries
      waiting := waiting
      about := fun e mem => by cases mem
      apart := fun id ne name => apart_update (effect.apart ne
        fun c r decided => (results c r decided).imp_right And.left) name
      active := rfl }
  obtain before | ⟨same, paid⟩ := results _ r decided
  · exact .inl before
  · obtain rfl : j = i := W.distinct same
    exact .inr (paid rfl committed)

theorem keeps_receiver (ledger : Ledger W initial w.bsos) (known : Known W w.bsos)
    {op : BSO → BSO × TransferState} {agent : TransactionAgent} {sent : List Envelope}
    (carries : agent.attempt = W.attempt i)
    (effect : (w.bsos (W.attempt i).toBSO).ReceiverEffect (W.attempt i)
      (op (w.bsos (W.attempt i).toBSO)).1)
    (after : ∀ t, (op (w.bsos (W.attempt i).toBSO)).1.incoming (W.attempt i).id = some t →
      t.state = .committed → Paid w.bsos (W.attempt i))
    (results : ∀ c r, (op (w.bsos (W.attempt i).toBSO)).1.decided c = some r →
      (w.bsos (W.attempt i).toBSO).decided c = some r ∨
        c.transferID = (W.attempt i).id ∧ c ≠ (W.attempt i).acceptance)
    (waiting : agent.phase.Committed → Paid w.bsos (W.attempt i))
    (about : ∀ e ∈ sent, e.About (W.attempt i) ∧ e.kind ≠ .commit) :
    Handled.Keeps W initial w i
      { world := (w.on (W.attempt i).toBSO op).1, agent := agent, sent := sent } where
  ledger := ledger.receiver effect after
  known := by
    refine known.update (fun _ paid => paid.receiver effect) fun j r decided _ => ?_
    obtain before | ⟨same, other⟩ := results _ r decided
    · exact .inl before
    · obtain rfl : j = i := W.distinct same
      exact absurd rfl other
  mono _ paid := paid.receiver effect
  carries := carries
  waiting phase := (waiting phase).receiver effect
  about e mem := ⟨(about e mem).1, fun commit => absurd commit (about e mem).2⟩
  apart id ne name := apart_update (effect.apart ne
    fun c r decided => (results c r decided).imp_right And.left) name
  active := rfl

theorem keeps_same (ledger : Ledger W initial w.bsos) (known : Known W w.bsos) {w' : World}
    (same : w'.bsos = w.bsos) (active : w'.activeIDs = w.activeIDs) {agent : TransactionAgent}
    {sent : List Envelope} (carries : agent.attempt = W.attempt i)
    (waiting : agent.phase.Committed → Paid w.bsos (W.attempt i))
    (about : ∀ e ∈ sent, e.About (W.attempt i) ∧ (e.kind = .commit → Paid w.bsos (W.attempt i))) :
    Handled.Keeps W initial w i { world := w', agent := agent, sent := sent } where
  ledger := by rw [same]; exact ledger
  known := by rw [same]; exact known
  mono _ paid := by rw [same]; exact paid
  carries := carries
  waiting phase := by rw [same]; exact waiting phase
  about e mem := by rw [same]; exact about e mem
  apart id ne name := by
    rw [same]
    exact ⟨rfl, rfl, rfl, fun _ _ _ known => known⟩
  active := active

/-! ## One step -/

theorem AgentPhase.Early.not_committed {phase : AgentPhase} (trust : phase.Early) :
    ¬ phase.Committed := by
  rintro (rfl | rfl) <;> simp [AgentPhase.Early] at trust

theorem about_forth (a : TransactionAgent) {kind : MessageKind}
    (forth : kind = .offer ∨ kind = .commit) (state : TransferState) :
    (newEnvelope a.transferID a.senderBSO a.receiverBSO a.amount kind state).About a.attempt :=
  ⟨rfl, rfl, .inl ⟨forth, rfl, rfl⟩⟩

theorem about_back (a : TransactionAgent) {kind : MessageKind}
    (back : kind = .accept ∨ kind = .reject ∨ kind = .acknowledge) (state : TransferState) :
    (newEnvelope a.transferID a.receiverBSO a.senderBSO a.amount kind state).About a.attempt :=
  ⟨rfl, rfl, .inr ⟨back, rfl, rfl⟩⟩

theorem reconcileAgent_keeps (ledger : Ledger W initial w.bsos) (known : Known W w.bsos)
    {a : TransactionAgent} (carries : a.attempt = W.attempt i) (round : Int) :
    (reconcileAgent w a round).Keeps W initial w i := by
  -- A record of the sender that says "committed" is the payment itself.
  have paid : ((w.bsos a.senderBSO).outgoing a.transferID).elim .unset Transfer.state = .committed →
      Paid w.bsos (W.attempt i) := by
    intro state
    rw [← carries]
    cases found : (w.bsos a.senderBSO).outgoing a.transferID with
    | none => simp [found] at state
    | some t => exact ⟨t, found, .inl (by simpa [found] using state)⟩
  have expire : ∀ phase : AgentPhase, ¬ phase.Committed → Handled.Keeps W initial w i
      { world := (w.on a.senderBSO (·.expire a.transferID)).1
        agent := { a with phase := phase, completedRound := round } } := fun phase early =>
    keeps_sender (a := a.attempt) ledger known carries rfl
      (BSO.expire_effect (ledger.sendsOf carries))
      (fun c r decided =>
        (BSO.decided_expire decided).imp_right fun ⟨own, _⟩ => by subst own; exact ⟨rfl, nofun⟩)
      (fun committed => absurd committed early)
  unfold reconcileAgent
  dsimp only
  split_ifs with done acked committed accepted reserved
  · exact keeps_same ledger known rfl rfl carries (by simp [AgentPhase.Committed]) (by simp)
  · refine keeps_same ledger known rfl rfl carries (fun _ => paid acked.1) fun e mem => ?_
    rw [List.mem_singleton] at mem
    subst mem
    exact ⟨carries ▸ about_back a (by simp) _, fun _ => paid acked.1⟩
  · exact keeps_same ledger known rfl rfl carries (fun _ => paid committed) (by simp)
  · exact keeps_same ledger known rfl rfl carries (by simp [AgentPhase.Committed]) (by simp)
  · exact keeps_same ledger known rfl rfl carries (by simp [AgentPhase.Committed]) (by simp)
  · exact expire .expired (by simp [AgentPhase.Committed])
  · exact expire .rejected (by simp [AgentPhase.Committed])

/-- A step of an agent keeps the money and the evidence of payments. -/
theorem step_keeps {cfg : Config} (ledger : Ledger W initial w.bsos) (known : Known W w.bsos)
    {a : TransactionAgent} (carries : a.attempt = W.attempt i)
    (waiting : a.phase.Committed → Paid w.bsos (W.attempt i)) {round : Int} {r : Handled}
    (result : step cfg w a round = .ok r) : r.Keeps W initial w i := by
  have idle : ∀ agent : TransactionAgent, agent.attempt = W.attempt i → agent.phase.Early →
      ∀ w' : World, w.SameBooks w' → Handled.Keeps W initial w i { world := w', agent := agent } :=
    fun agent own trust w' same => keeps_same ledger known same.1 same.2 own
      (fun committed => absurd committed trust.not_committed) (by simp)
  unfold step at result
  cases phase : a.phase with
  | created =>
    simp only [phase] at result
    split_ifs at result
    · cases result
      obtain ⟨bsos, attempt, trust⟩ := resolveTrust_frame w a round
      exact idle _ (attempt.trans carries) trust _ bsos
    · cases result
      exact idle a carries (.inl phase) w (.refl w)
  | trustCollect =>
    simp only [phase] at result
    split at result
    · cases result
    · cases result
      obtain ⟨bsos, attempt, trust⟩ := collectFrom_frame phase ‹_›
      exact idle _ (attempt.trans carries) trust _ bsos
  | trustAdmitted =>
    simp only [phase] at result
    split_ifs at result
    all_goals
      cases result
      exact keeps_sender (a := a.attempt) ledger known carries rfl (BSO.reserve_effect _ _ _)
        (fun c r decided =>
          (BSO.decided_reserve decided).imp_right fun ⟨own, _⟩ => by subst own; exact ⟨rfl, nofun⟩)
        (by simp [AgentPhase.Committed])
  | offerReceiver =>
    simp only [phase] at result
    cases result
    refine keeps_same ledger known rfl rfl carries (by simp [AgentPhase.Committed]) fun e mem => ?_
    rw [List.mem_singleton] at mem
    subst mem
    exact ⟨carries ▸ about_forth a (by simp) _, by simp [newEnvelope]⟩
  | commitSender =>
    simp only [phase] at result
    cases result
    have about : a.acceptance.About a.attempt := about_back a (by simp) _
    have records : ∀ t, (w.bsos a.senderBSO).outgoing a.transferID = some t → t.Sends a.attempt :=
      ledger.sendsOf carries
    -- A result that says "committed" comes with a record that says so, or was known before.
    have paid : ((w.bsos a.senderBSO).commitSender a.acceptance).2.Committed →
        Paid (w.on a.senderBSO (·.commitSender a.acceptance)).1.bsos a.attempt := by
      intro committed
      have effect : (w.bsos a.attempt.fromBSO).SenderEffect a.attempt
        ((w.bsos a.senderBSO).commitSender a.acceptance).1 := BSO.commitSender_effect about records
      obtain before | ⟨t, found, state⟩ | rejected := BSO.commitSender_result about records
      · have evidence := known i _ (carries ▸ before) committed
        rw [← carries] at evidence
        exact evidence.sender effect
      · have here : (w.on a.senderBSO (·.commitSender a.acceptance)).1.bsos a.senderBSO =
            ((w.bsos a.senderBSO).commitSender a.acceptance).1 := update_self ..
        exact ⟨t, (congrArg (BSO.outgoing · a.transferID) here).trans found, state ▸ committed⟩
      · simp [rejected, TransferState.Committed] at committed
    refine keeps_sender (a := a.attempt) ledger known carries rfl
      (BSO.commitSender_effect about records) (fun c r decided => ?_) ?_
    · obtain before | ⟨rfl, answer⟩ := BSO.decided_commitSender decided
      · exact .inl before
      · exact .inr ⟨rfl, fun _ committed => paid (answer ▸ committed)⟩
    · intro committed
      apply paid
      by_contra open_
      simp only [TransferState.Committed, not_or] at open_
      simp [World.on, open_, AgentPhase.Committed] at committed
  | commitReceiver =>
    simp only [phase] at result
    cases result
    have paid := waiting (.inl phase)
    refine keeps_same ledger known rfl rfl carries (fun _ => paid) fun e mem => ?_
    rw [List.mem_singleton] at mem
    subst mem
    exact ⟨carries ▸ about_forth a (by simp) _, fun _ => paid⟩
  | reconcile =>
    simp only [phase] at result
    cases result
    exact reconcileAgent_keeps ledger known carries round
  | awaitAccept | awaitAcknowledge | done | rejected | expired =>
    simp only [phase] at result
    cases result
    exact keeps_same ledger known rfl rfl carries waiting (by simp)

theorem deliver_keeps (ledger : Ledger W initial w.bsos) (known : Known W w.bsos)
    {a : TransactionAgent} (carries : a.attempt = W.attempt i)
    (waiting : a.phase.Committed → Paid w.bsos (W.attempt i)) {e : Envelope}
    (about : e.About (W.attempt i)) (commit : e.kind = .commit → Paid w.bsos (W.attempt i))
    (round : Int) : (deliver w a e round).Keeps W initial w i := by
  have same : Handled.Keeps W initial w i { world := w, agent := a } :=
    keeps_same ledger known rfl rfl carries waiting (by simp)
  rw [deliver]
  by_cases void : ¬ e.Valid ∨ e.toBSO ∉ w.activeIDs
  · rw [if_pos void]
    exact same
  rw [if_neg void]
  cases kind : e.kind with
  | offer =>
    have receiver : e.toBSO = (W.attempt i).toBSO :=
      (show _ ∧ _ by simpa [kind] using about.parties).2
    dsimp only
    rw [receiver]
    refine keeps_receiver ledger known carries (BSO.offer_effect about kind)
      (fun t found committed =>
        ledger.paid i t (BSO.incoming_offer about found committed) committed)
      (fun c r decided => (BSO.decided_offer decided).imp_right fun own => ?_) waiting
      fun f mem => ?_
    · obtain ⟨rfl, -⟩ := own
      exact ⟨about.transferID, by simp [Attempt.acceptance, Envelope.command, kind]⟩
    · rw [List.mem_singleton] at mem
      subst mem
      split_ifs <;> exact ⟨carries ▸ about_back a (by simp) _, by simp [newEnvelope]⟩
  | accept =>
    dsimp only
    split_ifs
    · exact keeps_same ledger known rfl rfl carries (by simp [AgentPhase.Committed]) (by simp)
    · exact same
  | reject =>
    exact keeps_same ledger known rfl rfl carries (by simp [AgentPhase.Committed]) (by simp)
  | commit =>
    have receiver : e.toBSO = (W.attempt i).toBSO :=
      (show _ ∧ _ by simpa [kind] using about.parties).2
    dsimp only
    rw [receiver]
    refine keeps_receiver ledger known carries
      (BSO.commitReceiver_effect about (ledger.receivesAt i _)) (fun _ _ _ => commit kind)
      (fun c r decided => (BSO.decided_commitReceiver decided).imp_right fun own => ?_) waiting
      fun f mem => ?_
    · obtain ⟨rfl, -⟩ := own
      exact ⟨about.transferID, by simp [Attempt.acceptance, Envelope.command, kind]⟩
    · split_ifs at mem
      · rw [List.mem_singleton] at mem
        subst mem
        exact ⟨carries ▸ about_back a (by simp) _, by simp [newEnvelope]⟩
      · cases mem
  | acknowledge =>
    have sender : e.toBSO = (W.attempt i).fromBSO :=
      (show _ ∧ _ by simpa [kind] using about.parties).2
    dsimp only
    rw [sender]
    have keeps : ∀ agent : TransactionAgent, agent.attempt = W.attempt i →
        (agent.phase.Committed → Paid w.bsos (W.attempt i)) → Handled.Keeps W initial w i
          { world := (w.on (W.attempt i).fromBSO (·.ackSender e)).1, agent := agent } := by
      intro agent own evidence
      have effect := BSO.ackSender_effect about (ledger.sendsAt i (W.attempt i).fromBSO)
      refine keeps_sender ledger known rfl own effect
        (fun c r decided => (BSO.decided_ackSender decided).imp_right fun own => ?_)
        fun committed => (evidence committed).sender effect
      obtain ⟨rfl, -⟩ := own
      exact ⟨about.transferID, by simp [Attempt.acceptance, Envelope.command, kind]⟩
    split_ifs
    · exact keeps _ carries (by simp [AgentPhase.Committed])
    · exact keeps _ carries waiting
  | reconcile => exact same

end Operations

/-! ## Whole runs -/

section Runs

variable {cfg : Config} {W : Workload} {initial : String → Int} {s t : State}

theorem Begins.inv (begins : Begins W initial s) : Inv W initial s := by
  obtain ⟨policies, fresh⟩ := begins.fresh
  have stage : ∀ i, (W.book s.world.bsos).stage i = .idle := by simp [Workload.book, stageOf, fresh]
  have funds : (W.book s.world.bsos).funds = initial := by simp [Workload.book, fresh]
  refine ⟨⟨?_, ?_, ?_, ?_, ?_, ?_, ?_, ?_, ?_⟩, ?_, ?_, ?_, ?_⟩
  · simp [fresh]
  · simp [fresh]
  · simp [fresh]
  · simp [fresh]
  · intro name
    simp only [TransferBook.heldBy, stage]
    simp [fresh]
  · simp [fresh, BSO.debits]
  · simp [fresh, BSO.credits]
  · simp [fresh]
  · intro accounts senders receivers
    simp [TransferBook.total, TransferBook.heldBy, TransferBook.inTransit, stage, funds]
  · intro i r known
    simp [fresh] at known
  · intro id a owned
    obtain ⟨i, same, rfl⟩ := begins.agents id a owned
    exact ⟨i, same, rfl⟩
  · intro id a owned committed
    obtain ⟨i, same, rfl⟩ := begins.agents id a owned
    simp [TransactionAgent.start, AgentPhase.Committed] at committed
  · intro e mem
    rw [begins.quiet] at mem
    cases mem

/-- The state after an agent has handled a step or a message. -/
theorem Handled.Keeps.inv (inv : Inv W initial s) {i : Fin W.count} {id : String} {r : Handled}
    {flight : List Envelope} (keeps : r.Keeps W initial s.world i) (own : (W.attempt i).id = id)
    (sub : ∀ e ∈ flight, e ∈ s.flight ∨ e ∈ r.sent) :
    Inv W initial
      { world := r.world, agents := update s.agents id (some r.agent), flight := flight } where
  ledger := keeps.ledger
  known := keeps.known
  carries other a owned := by
    dsimp only at owned
    by_cases same : other = id
    · rw [same, update_self, Option.some.injEq] at owned
      exact ⟨i, own.trans same.symm, owned ▸ keeps.carries⟩
    · rw [update_of_ne same] at owned
      exact inv.carries other a owned
  waiting other a owned committed := by
    dsimp only at owned ⊢
    by_cases same : other = id
    · rw [same, update_self, Option.some.injEq] at owned
      subst owned
      rw [keeps.carries]
      exact keeps.waiting committed
    · rw [update_of_ne same] at owned
      exact keeps.mono _ (inv.waiting other a owned committed)
  about e mem := by
    obtain old | new := sub e mem
    · obtain ⟨j, about, commit⟩ := inv.about e old
      exact ⟨j, about, fun kind => keeps.mono _ (commit kind)⟩
    · exact ⟨i, keeps.about e new⟩

/-- The agents change, and none of them comes into a phase that is evidence of a payment. -/
theorem Inv.agents (inv : Inv W initial s) {agents : String → Option TransactionAgent}
    (same : ∀ id a, agents id = some a → ∃ b, s.agents id = some b ∧ a.attempt = b.attempt ∧
      (a.phase.Committed → b.phase.Committed)) : Inv W initial { s with agents := agents } where
  ledger := inv.ledger
  known := inv.known
  carries id a owned := by
    obtain ⟨b, before, attempt, -⟩ := same id a owned
    obtain ⟨i, own, carries⟩ := inv.carries id b before
    exact ⟨i, own, attempt.trans carries⟩
  waiting id a owned committed := by
    obtain ⟨b, before, attempt, phase⟩ := same id a owned
    rw [attempt]
    exact inv.waiting id b before (phase committed)
  about := inv.about

theorem Inv.agent (inv : Inv W initial s) {id : String} {a a' : TransactionAgent}
    (owned : s.agents id = some a) (attempt : a'.attempt = a.attempt)
    (phase : a'.phase.Committed → a.phase.Committed) :
    Inv W initial { s with agents := update s.agents id (some a') } := by
  refine inv.agents fun other b found => ?_
  by_cases same : other = id
  · rw [same, update_self, Option.some.injEq] at found
    subst found
    exact ⟨a, same ▸ owned, attempt, phase⟩
  · rw [update_of_ne same] at found
    exact ⟨b, found, rfl, fun committed => committed⟩

theorem Inv.messages (inv : Inv W initial s) {flight : List Envelope}
    (sub : ∀ e ∈ flight, e ∈ s.flight) : Inv W initial { s with flight := flight } :=
  { inv with about := fun e mem => inv.about e (sub e mem) }

theorem Step.inv (inv : Inv W initial s) (step : Step cfg s t) : Inv W initial t := by
  cases step with
  | @turn id a round r owned running result =>
    obtain ⟨i, own, carries⟩ := inv.carries id a owned
    have waiting := inv.waiting id a owned
    rw [carries] at waiting
    exact (step_keeps inv.ledger inv.known carries waiting result).inv inv own
      fun e mem => List.mem_append.mp mem
  | @deliver before after e a round flight owned running =>
    obtain ⟨i, own, carries⟩ := inv.carries _ a owned
    have waiting := inv.waiting _ a owned
    rw [carries] at waiting
    have mem : e ∈ s.flight := by simp [flight]
    obtain ⟨j, about, commit⟩ := inv.about e mem
    obtain rfl : j = i := W.distinct (about.transferID.symm.trans own.symm)
    refine (deliver_keeps inv.ledger inv.known carries waiting about commit round).inv inv own
      fun f mem => ?_
    simp only [List.mem_append] at mem
    simp only [flight, List.mem_append, List.mem_cons]
    tauto
  | drop flight =>
    refine inv.messages fun f mem => ?_
    simp only [List.mem_append] at mem
    simp only [flight, List.mem_append, List.mem_cons]
    tauto
  | duplicate mem =>
    refine inv.messages fun f other => ?_
    obtain rfl | other := List.mem_cons.mp other
    · exact mem
    · exact other
  | @wake id a a' round owned woken =>
    unfold TransactionAgent.wakeDeadline at woken
    by_cases asleep : (a.phase ≠ .awaitAccept ∧ a.phase ≠ .awaitAcknowledge) ∨
        goInt (round + 1) < a.nextLogicalDeadline
    · rw [if_pos asleep] at woken
      cases woken
    rw [if_neg asleep] at woken
    cases woken
    refine inv.agent owned rfl fun committed => ?_
    by_contra early
    simp only [AgentPhase.Committed, not_or] at early
    have waits : a.phase = .awaitAccept := by tauto
    simp only [waits, AgentPhase.Committed] at committed
    split_ifs at committed <;> simp at committed
  | restart name =>
    refine inv.agents fun id a found => ?_
    obtain ⟨b, before, rfl⟩ := Option.map_eq_some_iff.mp found
    refine ⟨b, before, ?_, ?_⟩
    · split_ifs <;> rfl
    · split_ifs <;> simp [AgentPhase.Committed]
  | migrate owned => exact inv.agent owned rfl fun committed => committed
  | forget name command =>
    have outgoing : ∀ other, (update s.world.bsos name
        { s.world.bsos name with
          decided := update (s.world.bsos name).decided command none } other).outgoing =
        (s.world.bsos other).outgoing := by
      intro other
      by_cases same : other = name
      · rw [same, update_self]
      · rw [update_of_ne same]
    have mono : ∀ a, Paid s.world.bsos a → Paid (update s.world.bsos name
        { s.world.bsos name with
          decided := update (s.world.bsos name).decided command none }) a := by
      rintro a ⟨u, sent, state⟩
      exact ⟨u, by rw [outgoing, sent], state⟩
    exact
      { ledger := inv.ledger.forget name _
        known := inv.known.update mono fun j r decided _ => by
          by_cases same : (W.attempt j).acceptance = command
          · simp [same] at decided
          · exact .inl (by simpa [update_of_ne same] using decided)
        carries := inv.carries
        waiting := fun id a owned committed => mono _ (inv.waiting id a owned committed)
        about := fun e mem => by
          obtain ⟨i, about, commit⟩ := inv.about e mem
          exact ⟨i, about, fun kind => mono _ (commit kind)⟩ }

theorem Reach.inv (reach : Reach cfg W initial s) : Inv W initial s := by
  induction reach with
  | start begins => exact begins.inv
  | next _ step ih => exact step.inv ih

end Runs

/-! ## Conservation -/

def Debited (bsos : String → BSO) (a : Attempt) : Prop :=
  ((bsos a.fromBSO).outgoing a.id).any Transfer.debitApplied

def Credited (bsos : String → BSO) (a : Attempt) : Prop :=
  ((bsos a.toBSO).incoming a.id).any Transfer.creditApplied

instance (bsos : String → BSO) (a : Attempt) : Decidable (Debited bsos a) :=
  inferInstanceAs (Decidable (_ = true))

instance (bsos : String → BSO) (a : Attempt) : Decidable (Credited bsos a) :=
  inferInstanceAs (Decidable (_ = true))

namespace Ledger

variable {W : Workload} {initial : String → Int} {bsos : String → BSO}

section

variable (ledger : Ledger W initial bsos)
include ledger

theorem stage_moving_iff (i : Fin W.count) :
    (W.book bsos).stage i = .moving ↔
      Debited bsos (W.attempt i) ∧ ¬ Credited bsos (W.attempt i) := by
  unfold Debited Credited
  cases found : (bsos (W.attempt i).fromBSO).outgoing (W.attempt i).id with
  | none => simp [Workload.book, stageOf, found]
  | some t =>
    have debit := (ledger.sendsAt i _ t found).debit
    cases state : t.state <;> simp_all [Workload.book, stageOf]

theorem stage_held_iff (name : String) (i : Fin W.count) :
    (W.book bsos).stage i = .held ∧ (W.attempt i).fromBSO = name ↔
      ((bsos name).outgoing (W.attempt i).id).any (fun t => t.state = .reserved) := by
  constructor
  · rintro ⟨held, rfl⟩
    exact stageOf_eq_held.mp held
  · intro reserved
    cases found : (bsos name).outgoing (W.attempt i).id with
    | none => simp [found] at reserved
    | some t =>
      obtain ⟨j, id, rfl, -⟩ := ledger.sends name _ t found
      obtain rfl : j = i := W.distinct id
      exact ⟨stageOf_eq_held.mpr reserved, rfl⟩

/-- Only the sender is ever debited for a transfer. -/
theorem sum_debits_le (accounts : Finset String)
    (i : Fin W.count) : ∑ name ∈ accounts, (bsos name).debits (W.attempt i).id ≤ 1 := by
  have other : ∀ name ∈ accounts, name ≠ (W.attempt i).fromBSO →
      (bsos name).debits (W.attempt i).id = 0 := by
    intro name _ ne
    rw [ledger.debits]
    cases found : (bsos name).outgoing (W.attempt i).id with
    | none => simp
    | some t =>
      obtain ⟨j, id, rfl, -⟩ := ledger.sends name _ t found
      exact absurd (congrArg (Attempt.fromBSO ∘ W.attempt) (W.distinct id)) ne
  by_cases mem : (W.attempt i).fromBSO ∈ accounts
  · rw [Finset.sum_eq_single_of_mem _ mem other, ledger.debits]
    split_ifs <;> omega
  · rw [Finset.sum_eq_zero fun name here => other name here fun same => mem (same ▸ here)]
    omega

/-- Only the receiver is ever credited for a transfer. -/
theorem sum_credits_le (accounts : Finset String)
    (i : Fin W.count) : ∑ name ∈ accounts, (bsos name).credits (W.attempt i).id ≤ 1 := by
  have other : ∀ name ∈ accounts, name ≠ (W.attempt i).toBSO →
      (bsos name).credits (W.attempt i).id = 0 := by
    intro name _ ne
    rw [ledger.credits]
    cases found : (bsos name).incoming (W.attempt i).id with
    | none => simp
    | some t =>
      obtain ⟨j, id, rfl, -⟩ := ledger.receives name _ t found
      exact absurd (congrArg (Attempt.toBSO ∘ W.attempt) (W.distinct id)) ne
  by_cases mem : (W.attempt i).toBSO ∈ accounts
  · rw [Finset.sum_eq_single_of_mem _ mem other, ledger.credits]
    split_ifs <;> omega
  · rw [Finset.sum_eq_zero fun name here => other name here fun same => mem (same ▸ here)]
    omega

/-- What is credited was committed by the sender before. -/
theorem paid_of_credited {i : Fin W.count}
    (credited : Credited bsos (W.attempt i)) : Paid bsos (W.attempt i) := by
  unfold Credited at credited
  cases found : (bsos (W.attempt i).toBSO).incoming (W.attempt i).id with
  | none => simp [found] at credited
  | some t =>
    have applied : t.creditApplied := by simpa [found] using credited
    exact ledger.paid i t found ((ledger.receivesAt i _ t found).credit.mp applied)

end

end Ledger

def micro : Attempt where
  id := "trust:direct"
  fromBSO := "bso:000000"
  toBSO := "bso:000001"
  amount := 3
  transactionClass := .direct
  applicationReference := "direct:micro"

def microWorkload : Workload where
  count := 1
  attempt _ := micro
  distinct i j _ := Subsingleton.elim i j

def microStart : State where
  world :=
    { bsos := fun name => { id := name, balance := 100, trustPolicy := cappedPolicy name }
      activeIDs := ["bso:000000", "bso:000001"]
      trustRegistry := twoProviders }
  agents id := if id = "trust:direct" then some (.start micro) else none
  flight := []

theorem microStart_begins : Begins microWorkload (fun _ => 100) microStart where
  fresh := ⟨cappedPolicy, rfl⟩
  agents id a owned := by
    simp only [microStart] at owned
    split_ifs at owned with same
    cases owned
    exact ⟨⟨0, by decide⟩, same.symm, rfl⟩
  quiet := rfl

def microConfig : Config where
  retryDelay := 2
  reservationExpiry := 24

theorem micro_turn {s : State} {a : TransactionAgent} {r : Handled} (round : Int)
    (reach : Reach microConfig microWorkload (fun _ => 100) s)
    (owned : s.agents "trust:direct" = some a) (running : a.phase.terminal = false)
    (result : step microConfig s.world a round = .ok r) :
    Reach microConfig microWorkload (fun _ => 100)
      { world := r.world
        agents := update s.agents "trust:direct" (some r.agent)
        flight := s.flight ++ r.sent } :=
  reach.next (.turn owned running result)

theorem micro_deliver {s : State} {a : TransactionAgent} {e : Envelope} (round : Int)
    (reach : Reach microConfig microWorkload (fun _ => 100) s) (flight : s.flight = [e])
    (owned : s.agents e.transferID = some a) (running : a.phase.terminal = false) :
    Reach microConfig microWorkload (fun _ => 100)
      { world := (deliver s.world a e round).world
        agents := update s.agents e.transferID (some (deliver s.world a e round).agent)
        flight := (deliver s.world a e round).sent } :=
  reach.next (.deliver (show s.flight = [] ++ e :: [] from flight) owned running)

end OctetDB.Trust
