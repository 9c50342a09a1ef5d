import OctetDB.Trust.View

/-!
# The records of one transfer

How far the two authorities of a transfer are, with the results of commands that their databases
still know, and what each operation answers when it comes in its place. From that follows what
handling an item does in each phase of an agent.
-/

namespace OctetDB.Trust

open Function (update update_of_ne update_self)

/-- A transfer as workloads have them: between two authorities, of a positive amount. -/
structure Attempt.Proper (a : Attempt) : Prop where
  id : a.id ≠ ""
  sender : a.fromBSO ≠ ""
  receiver : a.toBSO ≠ ""
  apart : a.fromBSO ≠ a.toBSO
  positive : 0 < a.amount

/-! ## The records of one transfer -/

/-- How far the two authorities are with a transfer. The known results of commands agree with
that. -/
structure Records (bsos : String → BSO) (a : Attempt) (out inc : Option TransferState) : Prop where
  sent : ((bsos a.fromBSO).outgoing a.id).map Transfer.state = out
  received : ((bsos a.toBSO).incoming a.id).map Transfer.state = inc
  sends : ∀ t, (bsos a.fromBSO).outgoing a.id = some t → t.Sends a
  receives : ∀ t, (bsos a.toBSO).incoming a.id = some t → t.Receives a
  reserve : out = none → (bsos a.fromBSO).decided (.reserve a.id) = none
  offer : ∀ r, (bsos a.toBSO).decided (.message a.id .offer a.fromBSO) = some r →
    r = .accepted ∧ inc ≠ none
  accept : out = none ∨ out = some .reserved →
    (bsos a.fromBSO).decided (.message a.id .accept a.toBSO) = none
  commit : ∀ r, (bsos a.toBSO).decided (.message a.id .commit a.fromBSO) = some r →
    r = .committed ∧ inc = some .committed
  acknowledge : out ≠ some .acknowledged →
    (bsos a.fromBSO).decided (.message a.id .acknowledge a.toBSO) = none

namespace Records

variable {bsos bsos' : String → BSO} {a : Attempt} {out inc : Option TransferState} {b' : BSO}
  {t : Transfer} {command : Command} {result : TransferState}

theorem apart (records : Records bsos a out inc)
    (apart : ∀ name, (bsos name).Apart a.id (bsos' name)) : Records bsos' a out inc := by
  have unknown : ∀ {name c}, c.transferID = a.id → (bsos name).decided c = none →
      (bsos' name).decided c = none := by
    intro name c own before
    cases after : (bsos' name).decided c with
    | none => rfl
    | some r => simp [(apart name).decided c r own after] at before
  exact
    { sent := (apart _).outgoing ▸ records.sent
      received := (apart _).incoming ▸ records.received
      sends := (apart _).outgoing ▸ records.sends
      receives := (apart _).incoming ▸ records.receives
      reserve := fun new => unknown rfl (records.reserve new)
      offer := fun r known => records.offer r ((apart _).decided _ r rfl known)
      accept := fun early => unknown rfl (records.accept early)
      commit := fun r known => records.commit r ((apart _).decided _ r rfl known)
      acknowledge := fun early => unknown rfl (records.acknowledge early) }

theorem sender (records : Records bsos a out inc) (ne : a.fromBSO ≠ a.toBSO)
    (outgoing : b'.outgoing a.id = some t) (record : t.Sends a)
    (decided : ∀ c r, b'.decided c = some r →
      (bsos a.fromBSO).decided c = some r ∨ c = command)
    (accept : t.state = .reserved →
      command ≠ .message a.id .accept a.toBSO ∧ (out = none ∨ out = some .reserved))
    (acknowledge : t.state ≠ .acknowledged →
      command ≠ .message a.id .acknowledge a.toBSO ∧ out ≠ some .acknowledged) :
    Records (update bsos a.fromBSO b') a (some t.state) inc := by
  have unknown : ∀ c, c ≠ command → (bsos a.fromBSO).decided c = none → b'.decided c = none := by
    intro c other before
    cases after : b'.decided c with
    | none => rfl
    | some r =>
      obtain known | same := decided c r after
      · simp [known] at before
      · exact absurd same other
  have there : update bsos a.fromBSO b' a.toBSO = bsos a.toBSO :=
    update_of_ne ne.symm ..
  refine
    { sent := by rw [update_self, outgoing]; rfl
      received := by rw [there]; exact records.received
      sends := fun u found => ?_
      receives := by rw [there]; exact records.receives
      reserve := nofun
      offer := by rw [there]; exact records.offer
      accept := fun early => ?_
      commit := by rw [there]; exact records.commit
      acknowledge := fun early => ?_ }
  · rw [update_self, outgoing, Option.some.injEq] at found
    exact found ▸ record
  · obtain ⟨other, before⟩ := accept (by simpa using early)
    rw [update_self]
    exact unknown _ other.symm (records.accept before)
  · obtain ⟨other, before⟩ := acknowledge (by simpa using early)
    rw [update_self]
    exact unknown _ other.symm (records.acknowledge before)

theorem receiver (records : Records bsos a out inc) (ne : a.fromBSO ≠ a.toBSO)
    (incoming : b'.incoming a.id = some t) (record : t.Receives a)
    (decided : ∀ c r, b'.decided c = some r →
      (bsos a.toBSO).decided c = some r ∨ c = command ∧ r = result)
    (offer : command = .message a.id .offer a.fromBSO → result = .accepted)
    (commit : command = .message a.id .commit a.fromBSO →
      result = .committed ∧ t.state = .committed)
    (keeps : inc = some .committed → t.state = .committed) :
    Records (update bsos a.toBSO b') a out (some t.state) := by
  have there : update bsos a.toBSO b' a.fromBSO = bsos a.fromBSO :=
    update_of_ne ne ..
  refine
    { sent := by rw [there]; exact records.sent
      received := by rw [update_self, incoming]; rfl
      sends := by rw [there]; exact records.sends
      receives := fun u found => ?_
      reserve := by rw [there]; exact records.reserve
      offer := fun r known => ?_
      accept := by rw [there]; exact records.accept
      commit := fun r known => ?_
      acknowledge := by rw [there]; exact records.acknowledge }
  · rw [update_self, incoming, Option.some.injEq] at found
    exact found ▸ record
  · rw [update_self] at known
    obtain before | ⟨own, rfl⟩ := decided _ r known
    · exact ⟨(records.offer r before).1, nofun⟩
    · exact ⟨offer own.symm, nofun⟩
  · rw [update_self] at known
    obtain before | ⟨own, rfl⟩ := decided _ r known
    · obtain ⟨eq, committed⟩ := records.commit r before
      exact ⟨eq, congrArg some (keeps committed)⟩
    · obtain ⟨eq, committed⟩ := commit own.symm
      exact ⟨eq, congrArg some committed⟩

end Records

/-! The messages of a transfer. -/

namespace Attempt

def offerMessage (a : Attempt) : Envelope :=
  newEnvelope a.id a.fromBSO a.toBSO a.amount .offer .reserved

def acceptMessage (a : Attempt) : Envelope :=
  newEnvelope a.id a.toBSO a.fromBSO a.amount .accept .accepted

def commitMessage (a : Attempt) : Envelope :=
  newEnvelope a.id a.fromBSO a.toBSO a.amount .commit .committed

def ackMessage (a : Attempt) : Envelope :=
  newEnvelope a.id a.toBSO a.fromBSO a.amount .acknowledge .committed

end Attempt

/-! What each operation answers, when it comes in its place. -/

namespace Records

variable {bsos : String → BSO} {a : Attempt} {out inc : Option TransferState}

/-- The first reservation is refused if the balance does not cover it. -/
theorem reserve_refused (records : Records bsos a none inc) (round : Int)
    (uncovered : (bsos a.fromBSO).balance < a.amount) :
    ((bsos a.fromBSO).reserve a round).2 = .rejected := by
  have new := Option.map_eq_none_iff.mp records.sent
  simp [BSO.reserve, BSO.mutate, records.reserve rfl, new, uncovered]

/-- Else the amount is reserved. -/
theorem reserve_covered (records : Records bsos a none inc) (proper : a.Proper) (round : Int)
    (named : (bsos a.fromBSO).id = a.fromBSO) (covered : a.amount ≤ (bsos a.fromBSO).balance) :
    ((bsos a.fromBSO).reserve a round).2 = .reserved ∧
      Records (update bsos a.fromBSO ((bsos a.fromBSO).reserve a round).1) a
        (some .reserved) inc := by
  have new := Option.map_eq_none_iff.mp records.sent
  have effect : (bsos a.fromBSO).reserve a round =
      ({ bsos a.fromBSO with
          balance := (bsos a.fromBSO).balance - a.amount
          reserved := (bsos a.fromBSO).reserved + a.amount
          outgoing := update (bsos a.fromBSO).outgoing a.id
            (some ⟨a.id, a.fromBSO, a.toBSO, a.amount, .reserved, false, false, round⟩)
          decided := update (bsos a.fromBSO).decided (.reserve a.id) (some .reserved) },
        .reserved) := by
    simp [BSO.reserve, BSO.mutate, records.reserve rfl, new, named, proper.apart.symm,
      not_le.mpr proper.positive, not_lt.mpr covered]
  refine ⟨by rw [effect], ?_⟩
  exact records.sender proper.apart (by rw [effect]; exact update_self ..)
    ⟨rfl, rfl, rfl, by simp, by simp, fun _ => proper.positive⟩
    (fun c r known => (BSO.decided_reserve known).imp_right And.left) (fun _ => ⟨nofun, .inl rfl⟩)
    (fun _ => ⟨nofun, nofun⟩)

/-- An offer is accepted, as often as it comes before the commitment. -/
theorem offer_accepted (records : Records bsos a out inc) (proper : a.Proper)
    (early : inc = none ∨ inc = some .accepted) :
    ((bsos a.toBSO).offer a.offerMessage).2 = .accepted ∧
      Records (update bsos a.toBSO ((bsos a.toBSO).offer a.offerMessage).1) a out
        (some .accepted) := by
  have answer : ((bsos a.toBSO).offer a.offerMessage).2 = .accepted ∧ ∃ t : Transfer,
      ((bsos a.toBSO).offer a.offerMessage).1.incoming a.id = some t ∧ t.Receives a ∧
        t.state = .accepted := by
    cases found : (bsos a.toBSO).incoming a.id with
    | none =>
      have received := records.received
      rw [found, Option.map_none] at received
      cases known : (bsos a.toBSO).decided (.message a.id .offer a.fromBSO) with
      | some r => exact absurd received.symm (records.offer r known).2
      | none =>
        have effect : (bsos a.toBSO).offer a.offerMessage =
            ({ bsos a.toBSO with
                incoming := update (bsos a.toBSO).incoming a.id
                  (some ⟨a.id, a.fromBSO, a.toBSO, a.amount, .accepted, false, false, 0⟩)
                decided := update (bsos a.toBSO).decided (.message a.id .offer a.fromBSO)
                  (some .accepted) }, .accepted) := by
          simp [BSO.offer, BSO.mutate, Envelope.command, Attempt.offerMessage, newEnvelope, known,
            found]
        rw [effect]
        exact ⟨rfl, _, update_self .., ⟨rfl, rfl, rfl, .inl rfl, by simp⟩, rfl⟩
    | some t =>
      have record := records.receives t found
      have received := records.received
      rw [found, Option.map_some] at received
      have accepted : t.state = .accepted := by simpa [← received] using early
      cases known : (bsos a.toBSO).decided (.message a.id .offer a.fromBSO) with
      | some r =>
        have effect : (bsos a.toBSO).offer a.offerMessage = (bsos a.toBSO, r) := by
          simp [BSO.offer, BSO.mutate, Envelope.command, Attempt.offerMessage, newEnvelope, known]
        rw [effect]
        exact ⟨(records.offer r known).1, t, found, record, accepted⟩
      | none =>
        have effect : (bsos a.toBSO).offer a.offerMessage =
            ({ bsos a.toBSO with
                decided := update (bsos a.toBSO).decided (.message a.id .offer a.fromBSO)
                  (some .accepted) }, .accepted) := by
          simp [BSO.offer, BSO.mutate, Envelope.command, Attempt.offerMessage, newEnvelope, known,
            found, record.fromBSO, record.amount, accepted]
        rw [effect]
        exact ⟨rfl, t, found, record, accepted⟩
  obtain ⟨result, t, incoming, record, state⟩ := answer
  refine ⟨result, state ▸ records.receiver proper.apart incoming record
    (fun c r known => (BSO.decided_offer known).imp_right fun own => ⟨own.1, own.2.symm⟩)
    (fun _ => result) (fun own => by cases own) fun committed => ?_⟩
  simp [committed] at early

theorem commitSender_committed (records : Records bsos a (some .reserved) inc)
    (proper : a.Proper) :
    ((bsos a.fromBSO).commitSender a.acceptMessage).2 = .committed ∧
      Records (update bsos a.fromBSO ((bsos a.fromBSO).commitSender a.acceptMessage).1) a
        (some .committed) inc := by
  obtain ⟨t, found, reserved⟩ := Option.map_eq_some_iff.mp records.sent
  have record := records.sends t found
  have unapplied : t.debitApplied = false := by
    simpa [reserved] using record.debit
  have effect : (bsos a.fromBSO).commitSender a.acceptMessage =
      ({ bsos a.fromBSO with
          reserved := (bsos a.fromBSO).reserved - a.amount
          audit := (bsos a.fromBSO).audit ++ [⟨a.id, .committed, -a.amount⟩]
          outgoing := update (bsos a.fromBSO).outgoing a.id
            (some { t with state := .committed, debitApplied := true })
          decided := update (bsos a.fromBSO).decided (.message a.id .accept a.toBSO)
            (some .committed) }, .committed) := by
    simp [BSO.commitSender, BSO.mutate, Envelope.command, Attempt.acceptMessage, newEnvelope,
      records.accept (.inr rfl), found, record.id, record.toBSO, record.amount, reserved, unapplied]
  have outgoing : ((bsos a.fromBSO).commitSender a.acceptMessage).1.outgoing a.id =
      some { t with state := .committed, debitApplied := true } := by
    rw [effect]
    exact update_self ..
  refine ⟨by rw [effect], ?_⟩
  exact records.sender proper.apart outgoing
    ⟨record.id, record.toBSO, record.amount, by simp, by simp, fun _ => proper.positive⟩
    (fun c r known => (BSO.decided_commitSender known).imp_right And.left) (by simp)
    fun _ => ⟨fun own => (by cases own), by simp⟩

/-- The receiver commits what it has accepted, and confirms it as often as it is asked. -/
theorem commitReceiver_committed (records : Records bsos a out inc) (proper : a.Proper)
    (early : inc = some .accepted ∨ inc = some .committed) :
    ((bsos a.toBSO).commitReceiver a.commitMessage).2 = .committed ∧
      Records (update bsos a.toBSO ((bsos a.toBSO).commitReceiver a.commitMessage).1) a
        out (some .committed) := by
  obtain ⟨t, found, state⟩ : ∃ t, (bsos a.toBSO).incoming a.id = some t ∧
      (t.state = .accepted ∨ t.state = .committed) := by
    obtain accepted | committed := early
    · obtain ⟨t, found, state⟩ := Option.map_eq_some_iff.mp (records.received.trans accepted)
      exact ⟨t, found, .inl state⟩
    · obtain ⟨t, found, state⟩ := Option.map_eq_some_iff.mp (records.received.trans committed)
      exact ⟨t, found, .inr state⟩
  have record := records.receives t found
  have answer : ((bsos a.toBSO).commitReceiver a.commitMessage).2 = .committed ∧ ∃ u : Transfer,
      ((bsos a.toBSO).commitReceiver a.commitMessage).1.incoming a.id = some u ∧ u.Receives a ∧
        u.state = .committed := by
    cases known : (bsos a.toBSO).decided (.message a.id .commit a.fromBSO) with
    | some r =>
      obtain ⟨rfl, committed⟩ := records.commit r known
      have effect : (bsos a.toBSO).commitReceiver a.commitMessage = (bsos a.toBSO, .committed) := by
        simp [BSO.commitReceiver, BSO.mutate, Envelope.command, Attempt.commitMessage, newEnvelope,
          known]
      have received := records.received
      rw [found, committed, Option.map_some, Option.some.injEq] at received
      rw [effect]
      exact ⟨rfl, t, found, record, received⟩
    | none =>
      obtain accepted | committed := state
      · have unapplied : t.creditApplied = false := by simpa [accepted] using record.credit
        have effect : (bsos a.toBSO).commitReceiver a.commitMessage =
            ({ bsos a.toBSO with
                balance := (bsos a.toBSO).balance + a.amount
                audit := (bsos a.toBSO).audit ++ [⟨a.id, .committed, a.amount⟩]
                incoming := update (bsos a.toBSO).incoming a.id
                  (some { t with state := .committed, creditApplied := true })
                decided := update (bsos a.toBSO).decided (.message a.id .commit a.fromBSO)
                  (some .committed) }, .committed) := by
          simp [BSO.commitReceiver, BSO.mutate, Envelope.command, Attempt.commitMessage,
            newEnvelope, known, found, record.id, record.fromBSO, record.amount,
            accepted, unapplied]
        rw [effect]
        exact ⟨rfl, _, update_self ..,
          ⟨record.id, record.fromBSO, record.amount, .inr rfl, by simp⟩, rfl⟩
      · have effect : (bsos a.toBSO).commitReceiver a.commitMessage =
            ({ bsos a.toBSO with
                decided := update (bsos a.toBSO).decided (.message a.id .commit a.fromBSO)
                  (some .committed) }, .committed) := by
          simp [BSO.commitReceiver, BSO.mutate, Envelope.command, Attempt.commitMessage,
            newEnvelope, known, found, record.fromBSO, record.amount, committed]
        rw [effect]
        exact ⟨rfl, t, found, record, committed⟩
  obtain ⟨result, u, incoming, record', committed⟩ := answer
  exact ⟨result, committed ▸ records.receiver proper.apart incoming record'
    (fun c r known => (BSO.decided_commitReceiver known).imp_right fun own => ⟨own.1, own.2.symm⟩)
    (fun own => by cases own) (fun _ => ⟨result, committed⟩) fun _ => committed⟩

theorem ackSender_acknowledged (records : Records bsos a (some .committed) inc) :
    ((bsos a.fromBSO).ackSender a.ackMessage).2 = .acknowledged := by
  obtain ⟨t, found, committed⟩ := Option.map_eq_some_iff.mp records.sent
  have record := records.sends t found
  simp [BSO.ackSender, BSO.mutate, Envelope.command, Attempt.ackMessage, newEnvelope,
    records.acknowledge (by simp), found, record.toBSO, record.amount, committed]

end Records

/-! ## Items -/

/-- The item with which the agent of the transfer is stepped. -/
def Attempt.stepItem (a : Attempt) : WorkItem where
  transferID := a.id

/-! What handling an item does in each phase. -/

section Items

variable {cfg : Config} {w : World} {x : TransactionAgent} {a : Attempt} {round : Int}

theorem workOn_offerReceiver (own : x.attempt = a) (phase : x.phase = .offerReceiver) :
    workOn cfg w x a.stepItem round = .ok
      ({ world := w
         agent := { x with
           phase := .awaitAccept
           nextLogicalDeadline := cfg.deadline round }
         sent := [a.offerMessage] }, false) := by
  subst own
  simp [workOn, Attempt.stepItem, step, phase, Attempt.offerMessage, TransactionAgent.attempt]

theorem workOn_commitReceiver (own : x.attempt = a) (phase : x.phase = .commitReceiver) :
    workOn cfg w x a.stepItem round = .ok
      ({ world := w
         agent := { x with
           phase := .awaitAcknowledge
           nextLogicalDeadline := cfg.deadline round }
         sent := [a.commitMessage] }, false) := by
  subst own
  simp [workOn, Attempt.stepItem, step, phase, Attempt.commitMessage, TransactionAgent.attempt]

theorem workOn_commitSender (own : x.attempt = a) (phase : x.phase = .commitSender)
    (committed : ((w.bsos a.fromBSO).commitSender a.acceptMessage).2 = .committed) :
    workOn cfg w x a.stepItem round = .ok
      ({ world := (w.on a.fromBSO (·.commitSender a.acceptMessage)).1
         agent := { x with phase := .commitReceiver } }, true) := by
  subst own
  have answer : (w.on x.senderBSO (·.commitSender x.acceptance)).2 = .committed := committed
  simp only [workOn, Attempt.stepItem, step, phase, answer]
  rfl

/-- Up to the decision on trust, an agent only looks for trust. -/
theorem workOn_trust (own : x.attempt = a)
    (phase : x.phase = .created ∨ x.phase = .trustCollect) {r : Handled} {again : Bool}
    (done : workOn cfg w x a.stepItem round = .ok (r, again)) :
    w.SameBooks r.world ∧ r.agent.attempt = a ∧ r.agent.phase.Early ∧ r.sent = [] ∧
      again = decide (r.agent.phase ≠ .rejected) := by
  unfold workOn at done
  simp only [Attempt.stepItem] at done
  cases result : step cfg w x round with
  | error err => simp [result] at done
  | ok outcome =>
    simp only [result, Except.ok.injEq, Prod.mk.injEq] at done
    obtain ⟨rfl, rfl⟩ := done
    suffices trust : w.SameBooks outcome.world ∧ outcome.agent.attempt = a ∧
        outcome.agent.phase.Early ∧ outcome.sent = [] by
      obtain ⟨books, attempt, early, quiet⟩ := trust
      refine ⟨books, attempt, early, quiet, ?_⟩
      obtain phase | phase | phase | phase := early <;> simp [phase, AgentPhase.terminal]
    obtain phase | phase := phase
    · simp only [step, phase] at result
      split_ifs at result
      · cases result
        obtain ⟨books, attempt, early⟩ := resolveTrust_frame w x round
        exact ⟨books, attempt.trans own, early, rfl⟩
      · cases result
        exact ⟨.refl w, own, .inl phase, rfl⟩
    · simp only [step, phase] at result
      cases collected : collectTrust w x round with
      | error err => simp [collected] at result
      | ok pair =>
        simp only [collected] at result
        cases result
        obtain ⟨books, attempt, early⟩ := collectFrom_frame phase collected
        exact ⟨books, attempt.trans own, early, rfl⟩

/-- An agent that was admitted asks for the reservation. -/
theorem workOn_trustAdmitted (own : x.attempt = a) (phase : x.phase = .trustAdmitted) {r : Handled}
    {again : Bool} (done : workOn cfg w x a.stepItem round = .ok (r, again)) :
    ((w.bsos a.fromBSO).reserve a round).2 = .rejected ∧ again = false ∧
        r = { world := (w.on a.fromBSO (·.reserve a round)).1
              agent := { x with phase := .rejected, completedRound := round } } ∨
      ((w.bsos a.fromBSO).reserve a round).2 ≠ .rejected ∧ again = true ∧
        r = { world := (w.on a.fromBSO (·.reserve a round)).1
              agent := { x with phase := .offerReceiver } } := by
  subst own
  by_cases unresolved : x.trustResolutionID = ""
  · simp [workOn, Attempt.stepItem, step, phase, unresolved] at done
  by_cases refused : ((w.bsos x.attempt.fromBSO).reserve x.attempt round).2 = .rejected
  · have answer : (w.on x.senderBSO (·.reserve x.attempt round)).2 = .rejected := refused
    simp only [workOn, Attempt.stepItem, step, phase, unresolved, answer, if_true, if_false] at done
    cases done
    exact .inl ⟨refused, rfl, rfl⟩
  · have answer : (w.on x.senderBSO (·.reserve x.attempt round)).2 ≠ .rejected := refused
    simp only [workOn, Attempt.stepItem, step, phase, unresolved, answer, if_false] at done
    cases done
    exact .inr ⟨refused, rfl, rfl⟩

/-- The phases after the decision on trust. -/
def AgentPhase.Late (phase : AgentPhase) : Prop :=
  phase ≠ .created ∧ phase ≠ .trustCollect ∧ phase ≠ .trustAdmitted

/-- The step of an agent whose trust is decided does not fail. -/
theorem step_late (late : x.phase.Late) :
    ∃ r, step cfg w x round = .ok r ∧ r.agent.phase.Late := by
  obtain ⟨created, collect, admitted⟩ := late
  cases phase : x.phase with
  | created => exact absurd phase created
  | trustCollect => exact absurd phase collect
  | trustAdmitted => exact absurd phase admitted
  | offerReceiver =>
    refine ⟨_, by simp only [step, phase]; rfl, ?_⟩
    simp [AgentPhase.Late]
  | commitSender =>
    refine ⟨_, by simp only [step, phase]; rfl, ?_⟩
    dsimp only
    split_ifs <;> simp [AgentPhase.Late]
  | commitReceiver =>
    refine ⟨_, by simp only [step, phase]; rfl, ?_⟩
    simp [AgentPhase.Late]
  | reconcile =>
    refine ⟨_, by simp only [step, phase]; rfl, ?_⟩
    unfold reconcileAgent
    dsimp only
    split_ifs <;> simp [AgentPhase.Late]
  | awaitAccept | awaitAcknowledge | done | rejected | expired =>
    refine ⟨_, by simp only [step, phase]; rfl, ?_⟩
    simp [AgentPhase.Late, phase]

/-- A message leaves the agent as it is, or moves it to a phase after the decision on trust. -/
theorem deliver_agent {e : Envelope} :
    (deliver w x e round).agent = x ∨ (deliver w x e round).agent.phase.Late := by
  by_cases bad : ¬ e.Valid ∨ e.toBSO ∉ w.activeIDs
  · rw [deliver, if_pos bad]
    exact .inl rfl
  · rw [deliver, if_neg bad]
    cases e.kind with
    | offer | commit | reconcile => exact .inl rfl
    | accept =>
      dsimp only
      split_ifs
      · exact .inr (by simp [AgentPhase.Late])
      · exact .inl rfl
    | reject => exact .inr (by simp [AgentPhase.Late])
    | acknowledge =>
      dsimp only
      split_ifs
      · exact .inr (by simp [AgentPhase.Late])
      · exact .inl rfl

theorem wakeDeadline_late {y : TransactionAgent} (woken : x.wakeDeadline cfg round = some y) :
    y.phase.Late := by
  unfold TransactionAgent.wakeDeadline at woken
  split_ifs at woken <;> cases woken <;> simp [AgentPhase.Late]

/-- A property of agents that items and deadlines keep, and with which no step fails. -/
structure Closed (cfg : Config) (C : TransactionAgent → Prop) : Prop where
  work : ∀ {w x round}, C x → ∀ item, ∃ r again,
    workOn cfg w x item round = .ok (r, again) ∧ C r.agent
  wake : ∀ {x y round}, C x → x.wakeDeadline cfg round = some y → C y

theorem closed_late (cfg : Config) : Closed cfg fun x => x.phase.Late where
  work := by
    intro w x round late item
    unfold workOn
    cases item.envelope with
    | some e =>
      refine ⟨_, _, rfl, ?_⟩
      obtain same | later : (deliver w x e round).agent = x ∨
        (deliver w x e round).agent.phase.Late := deliver_agent
      · rwa [same]
      · exact later
    | none =>
      obtain ⟨r, result, later⟩ : ∃ r, step cfg w x round = .ok r ∧ r.agent.phase.Late :=
        step_late late
      exact ⟨r, _, by simp only [result]; rfl, later⟩
  wake _ woken := wakeDeadline_late woken

/-- An agent that can settle its transfer: the decision on trust is made, and recorded if it is a
yes. -/
def TransactionAgent.Settling (x : TransactionAgent) : Prop :=
  x.phase.Late ∨ x.phase = .trustAdmitted ∧ x.trustResolutionID ≠ ""

theorem closed_settling (cfg : Config) : Closed cfg TransactionAgent.Settling where
  work := by
    rintro w x round (late | ⟨phase, resolved⟩) item
    · obtain ⟨r, again, done, later⟩ := (closed_late cfg).work late item
      exact ⟨r, again, done, .inl later⟩
    · unfold workOn
      cases item.envelope with
      | some e =>
        refine ⟨_, _, rfl, ?_⟩
        obtain same | later : (deliver w x e round).agent = x ∨
          (deliver w x e round).agent.phase.Late := deliver_agent
        · exact .inr (by rw [same]; exact ⟨phase, resolved⟩)
        · exact .inl later
      | none =>
        refine ⟨_, _, by simp only [step, phase, resolved, if_false]; rfl, .inl ?_⟩
        dsimp only
        split_ifs <;> simp [AgentPhase.Late]
  wake _ woken := .inl (wakeDeadline_late woken)

/-- The messages of a proper transfer are delivered. -/
theorem deliverable {e : Envelope} (proper : a.Proper) (about : e.About a)
    (ready : Ready a w) : ¬ (¬ e.Valid ∨ e.toBSO ∉ w.activeIDs) := by
  have id := about.transferID ▸ proper.id
  have amount := about.amount ▸ proper.positive
  rw [not_or, not_not, not_not]
  obtain ⟨-, sender, receiver⟩ | ⟨-, sender, receiver⟩ := about.parties
  · exact ⟨⟨sender ▸ proper.sender, receiver ▸ proper.receiver,
      sender ▸ receiver ▸ proper.apart, id, amount⟩, receiver ▸ ready.receiver⟩
  · exact ⟨⟨sender ▸ proper.receiver, receiver ▸ proper.sender,
      sender ▸ receiver ▸ proper.apart.symm, id, amount⟩, receiver ▸ ready.sender⟩

theorem workOn_offerMessage (own : x.attempt = a) (proper : a.Proper) (ready : Ready a w)
    (accepted : ((w.bsos a.toBSO).offer a.offerMessage).2 = .accepted)
    (waits : x.phase = .awaitAccept) :
    workOn cfg w x a.offerMessage.item round = .ok
      ({ world := (w.on a.toBSO (·.offer a.offerMessage)).1
         agent := x
         sent := [a.acceptMessage] }, false) := by
  have valid := deliverable proper ⟨rfl, rfl, .inl ⟨.inl rfl, rfl, rfl⟩⟩ ready (e := a.offerMessage)
  have answer : (w.on a.offerMessage.toBSO (·.offer a.offerMessage)).2 = .accepted := accepted
  have delivered : deliver w x a.offerMessage round =
      { world := (w.on a.toBSO (·.offer a.offerMessage)).1
        agent := x
        sent := [a.acceptMessage] } := by
    rw [deliver, if_neg valid]
    simp only [show a.offerMessage.kind = .offer from rfl, answer]
    subst own
    rfl
  simp only [workOn, Envelope.item, delivered, waits]
  rfl

theorem workOn_acceptMessage (proper : a.Proper) (ready : Ready a w)
    (waits : x.phase = .awaitAccept) :
    workOn cfg w x a.acceptMessage.item round = .ok
      ({ world := w, agent := { x with phase := .commitSender } }, true) := by
  have valid := deliverable proper ⟨rfl, rfl, .inr ⟨.inl rfl, rfl, rfl⟩⟩ ready
    (e := a.acceptMessage)
  have delivered : deliver w x a.acceptMessage round =
      { world := w, agent := { x with phase := .commitSender } } := by
    rw [deliver, if_neg valid]
    simp only [show a.acceptMessage.kind = .accept from rfl, waits, if_true]
  simp only [workOn, Envelope.item, delivered, waits]
  rfl

/-- An acceptance that nobody waits for is ignored. -/
theorem workOn_acceptMessage_late (busy : x.phase ≠ .awaitAccept) :
    workOn cfg w x a.acceptMessage.item round = .ok ({ world := w, agent := x }, false) := by
  have delivered : deliver w x a.acceptMessage round = { world := w, agent := x } := by
    rw [deliver]
    split_ifs
    · rfl
    · simp only [show a.acceptMessage.kind = .accept from rfl]
  simp [workOn, Envelope.item, delivered, busy]

theorem workOn_commitMessage (own : x.attempt = a) (proper : a.Proper) (ready : Ready a w)
    (committed : ((w.bsos a.toBSO).commitReceiver a.commitMessage).2 = .committed)
    (waits : x.phase = .awaitAcknowledge) :
    workOn cfg w x a.commitMessage.item round = .ok
      ({ world := (w.on a.toBSO (·.commitReceiver a.commitMessage)).1
         agent := x
         sent := [a.ackMessage] }, false) := by
  have valid := deliverable proper ⟨rfl, rfl, .inl ⟨.inr rfl, rfl, rfl⟩⟩ ready
    (e := a.commitMessage)
  have answer : (w.on a.commitMessage.toBSO (·.commitReceiver a.commitMessage)).2 = .committed :=
    committed
  have delivered : deliver w x a.commitMessage round =
      { world := (w.on a.toBSO (·.commitReceiver a.commitMessage)).1
        agent := x
        sent := [a.ackMessage] } := by
    rw [deliver, if_neg valid]
    simp only [show a.commitMessage.kind = .commit from rfl, answer]
    subst own
    rfl
  simp only [workOn, Envelope.item, delivered, waits]
  rfl

theorem workOn_ackMessage (proper : a.Proper) (ready : Ready a w)
    (acknowledged : ((w.bsos a.fromBSO).ackSender a.ackMessage).2 = .acknowledged)
    (waits : x.phase = .awaitAcknowledge) :
    workOn cfg w x a.ackMessage.item round = .ok
      ({ world := (w.on a.fromBSO (·.ackSender a.ackMessage)).1
         agent := { x with phase := .done, completedRound := round } }, false) := by
  have valid := deliverable proper ⟨rfl, rfl, .inr ⟨.inr (.inr rfl), rfl, rfl⟩⟩ ready
    (e := a.ackMessage)
  have answer : (w.on a.ackMessage.toBSO (·.ackSender a.ackMessage)).2 = .acknowledged :=
    acknowledged
  have delivered : deliver w x a.ackMessage round =
      { world := (w.on a.fromBSO (·.ackSender a.ackMessage)).1
        agent := { x with phase := .done, completedRound := round } } := by
    rw [deliver, if_neg valid]
    simp only [show a.ackMessage.kind = .acknowledge from rfl, answer, if_true]
    rfl
  simp only [workOn, Envelope.item, delivered, waits]
  rfl

end Items

end OctetDB.Trust
