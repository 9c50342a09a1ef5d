import OctetDB.Trust.Policy

/-!
# The durable state of an authority

An authority (BSO) keeps its balance, what it has reserved, and a record of each transfer it sends
or receives. Every change is one command of its database: a command whose result is still known is
answered with that result and not carried out again.

Money is counted in unbounded integers. Commands are named by texts in the source; here they are
values, which is the same as long as the names of authorities have no slash (`Command.text_inj`).
-/

namespace OctetDB.Trust

open Function (update update_of_ne update_self)

/-- The state of a transfer, `unset` where there is no record of it. -/
inductive TransferState
  | unset | reserved | accepted | committed | acknowledged | rejected | expired
  deriving DecidableEq, Repr

inductive MessageKind
  | offer | accept | reject | commit | acknowledge | reconcile
  deriving DecidableEq, Repr

def MessageKind.text : MessageKind → String
  | .offer => "offer"
  | .accept => "accept"
  | .reject => "reject"
  | .commit => "commit"
  | .acknowledge => "acknowledge"
  | .reconcile => "reconcile"

structure Transfer where
  id : String
  fromBSO : String
  toBSO : String
  amount : Int
  state : TransferState
  debitApplied : Bool := false
  creditApplied : Bool := false
  createdRound : Int := 0
  deriving DecidableEq, Repr

structure AuditEntry where
  transferID : String
  state : TransferState
  delta : Int
  deriving DecidableEq, Repr

/-- A protocol message. It is made by `newEnvelope` only, so its version, its schema and its
authentication always are what a receiver expects. -/
structure Envelope where
  transferID : String
  fromBSO : String
  toBSO : String
  amount : Int
  kind : MessageKind
  state : TransferState
  deriving DecidableEq, Repr

def newEnvelope (id fromBSO toBSO : String) (amount : Int) (kind : MessageKind)
    (state : TransferState) : Envelope where
  transferID := id
  fromBSO := fromBSO
  toBSO := toBSO
  amount := amount
  kind := kind
  state := state

/-! ## Commands -/

inductive Command
  | reserve (transferID : String)
  | message (transferID : String) (kind : MessageKind) (fromBSO : String)
  | expire (transferID : String)
  deriving DecidableEq, Repr

def Command.text : Command → String
  | .reserve id => "reserve/" ++ id
  | .message id kind fromBSO => "message/" ++ id ++ "/" ++ kind.text ++ "/" ++ fromBSO
  | .expire id => "expire/" ++ id

/-- The transfer that a command is about. -/
def Command.transferID : Command → String
  | .reserve id => id
  | .message id _ _ => id
  | .expire id => id

/-- The command of a message, by the identity of the message. -/
def Envelope.command (e : Envelope) : Command := .message e.transferID e.kind e.fromBSO

theorem MessageKind.slash_notMem_text (kind : MessageKind) : '/' ∉ kind.text.toList := by
  cases kind <;> decide

theorem MessageKind.text_inj {k l : MessageKind} (same : k.text = l.text) : k = l := by
  revert same
  cases k <;> cases l <;> decide

/-- What stands behind the last slash of a text is determined by the text. -/
theorem append_slash_inj {a b c d : List Char} (plain : '/' ∉ b) (plain' : '/' ∉ d)
    (same : a ++ '/' :: b = c ++ '/' :: d) : a = c ∧ b = d := by
  obtain ⟨e, rfl, eq⟩ | ⟨e, rfl, eq⟩ := List.append_eq_append_iff.mp same
  · cases e with
    | nil => simpa using eq
    | cons x xs =>
      obtain ⟨-, rfl⟩ := List.cons.inj eq
      simp at plain
  · cases e with
    | nil => simpa [eq_comm] using eq
    | cons x xs =>
      obtain ⟨-, rfl⟩ := List.cons.inj eq
      simp at plain'

/-- The names of authorities in the command have no slash. -/
def Command.Plain : Command → Prop
  | .message _ _ fromBSO => '/' ∉ fromBSO.toList
  | _ => True

variable {c : Command} {id : String} {r : TransferState}

/-- Different commands have different texts. -/
theorem Command.text_inj {d : Command} (plain : c.Plain) (plain' : d.Plain)
    (same : c.text = d.text) : c = d := by
  have chars := congrArg String.toList same
  cases c with
  | reserve id =>
    cases d <;> simp [Command.text] at chars
    rw [String.toList_inj.mp chars]
  | expire id =>
    cases d <;> simp [Command.text] at chars
    rw [String.toList_inj.mp chars]
  | message id kind sender =>
    cases d with
    | reserve id' => simp [Command.text] at chars
    | expire id' => simp [Command.text] at chars
    | message id' kind' sender' =>
      have parts : (id.toList ++ '/' :: kind.text.toList) ++ '/' :: sender.toList =
          (id'.toList ++ '/' :: kind'.text.toList) ++ '/' :: sender'.toList := by
        simpa [Command.text] using chars
      obtain ⟨front, senders⟩ := append_slash_inj plain plain' parts
      obtain ⟨ids, kinds⟩ := append_slash_inj kind.slash_notMem_text kind'.slash_notMem_text front
      rw [String.toList_inj.mp ids, MessageKind.text_inj (String.toList_inj.mp kinds),
        String.toList_inj.mp senders]

/-! ## The authority -/

/-- An authority: its durable state, and the results of commands that its database still knows. -/
structure BSO where
  id : String
  balance : Int
  reserved : Int := 0
  outgoing : String → Option Transfer := fun _ => none
  incoming : String → Option Transfer := fun _ => none
  audit : List AuditEntry := []
  trustPolicy : TrustPolicy
  decided : Command → Option TransferState := fun _ => none

namespace BSO

def mutate (b : BSO) (command : Command) (fn : BSO → BSO × TransferState) : BSO × TransferState :=
  match b.decided command with
  | some result => (b, result)
  | none =>
    let (b', result) := fn b
    ({ b' with decided := update b'.decided command (some result) }, result)

def reserve (b : BSO) (a : Attempt) (round : Int) : BSO × TransferState :=
  b.mutate (.reserve a.id) fun s =>
    match s.outgoing a.id with
    | some t => (s, t.state)
    | none =>
      let t state : Transfer :=
        { id := a.id, fromBSO := a.fromBSO, toBSO := a.toBSO, amount := a.amount, state,
          createdRound := round }
      if a.fromBSO ≠ s.id ∨ a.toBSO = s.id ∨ a.amount ≤ 0 ∨ s.balance < a.amount then
        ({ s with outgoing := update s.outgoing a.id (some (t .rejected)) }, .rejected)
      else
        ({ s with
            balance := s.balance - a.amount
            reserved := s.reserved + a.amount
            outgoing := update s.outgoing a.id (some (t .reserved)) }, .reserved)

def offer (b : BSO) (e : Envelope) : BSO × TransferState :=
  b.mutate e.command fun s =>
    match s.incoming e.transferID with
    | some t => if t.fromBSO ≠ e.fromBSO ∨ t.amount ≠ e.amount then (s, .rejected) else (s, t.state)
    | none =>
      let t : Transfer :=
        { id := e.transferID, fromBSO := e.fromBSO, toBSO := e.toBSO, amount := e.amount,
          state := .accepted }
      ({ s with incoming := update s.incoming e.transferID (some t) }, .accepted)

def commitSender (b : BSO) (e : Envelope) : BSO × TransferState :=
  b.mutate e.command fun s =>
    match s.outgoing e.transferID with
    | none => (s, .rejected)
    | some t =>
      if t.toBSO ≠ e.fromBSO ∨ t.amount ≠ e.amount then (s, .rejected)
      else if t.state = .reserved ∨ t.state = .accepted then
        let t' := { t with state := .committed, debitApplied := true }
        let s' := if t.debitApplied then s else
          { s with
            reserved := s.reserved - t.amount
            audit := s.audit ++ [⟨t.id, .committed, -t.amount⟩] }
        ({ s' with outgoing := update s'.outgoing t.id (some t') }, .committed)
      else (s, t.state)

def commitReceiver (b : BSO) (e : Envelope) : BSO × TransferState :=
  b.mutate e.command fun s =>
    match s.incoming e.transferID with
    | none => (s, .rejected)
    | some t =>
      if t.fromBSO ≠ e.fromBSO ∨ t.amount ≠ e.amount then (s, .rejected)
      else if t.state = .accepted then
        let t' := { t with state := .committed, creditApplied := true }
        let s' := if t.creditApplied then s else
          { s with
            balance := s.balance + t.amount
            audit := s.audit ++ [⟨t.id, .committed, t.amount⟩] }
        ({ s' with incoming := update s'.incoming t.id (some t') }, .committed)
      else (s, t.state)

def ackSender (b : BSO) (e : Envelope) : BSO × TransferState :=
  b.mutate e.command fun s =>
    match s.outgoing e.transferID with
    | none => (s, .unset)
    | some t =>
      if t.toBSO = e.fromBSO ∧ t.amount = e.amount ∧ t.state = .committed then
        let t' := { t with state := .acknowledged }
        ({ s with outgoing := update s.outgoing t.id (some t') }, .acknowledged)
      else (s, t.state)

def expire (b : BSO) (id : String) : BSO × TransferState :=
  b.mutate (.expire id) fun s =>
    match s.outgoing id with
    | none => (s, .unset)
    | some t =>
      if t.state = .reserved ∨ t.state = .accepted then
        let t' := { t with state := .expired }
        ({ s with
            balance := s.balance + t.amount
            reserved := s.reserved - t.amount
            outgoing := update s.outgoing id (some t') }, .expired)
      else (s, t.state)

/-- The transfers that a restarted authority has open. -/
def pending (b : BSO) (id : String) : Bool :=
  (b.outgoing id).any (fun t => t.state ≠ .acknowledged ∧ t.state ≠ .rejected ∧
    t.state ≠ .expired) || (b.incoming id).any fun t => t.state = .accepted

end BSO

/-! ## What an operation does -/

/-- The record that the sender of a transfer keeps. -/
structure Transfer.Sends (t : Transfer) (a : Attempt) : Prop where
  id : t.id = a.id
  toBSO : t.toBSO = a.toBSO
  amount : t.amount = a.amount
  state : t.state ≠ .unset ∧ t.state ≠ .accepted
  debit : t.debitApplied ↔ t.state = .committed ∨ t.state = .acknowledged
  positive : t.state ≠ .rejected → 0 < a.amount

/-- The record that the receiver of a transfer keeps. -/
structure Transfer.Receives (t : Transfer) (a : Attempt) : Prop where
  id : t.id = a.id
  fromBSO : t.fromBSO = a.fromBSO
  amount : t.amount = a.amount
  state : t.state = .accepted ∨ t.state = .committed
  credit : t.creditApplied ↔ t.state = .committed

/-- The message is one of the protocol for the transfer. -/
structure Envelope.About (e : Envelope) (a : Attempt) : Prop where
  transferID : e.transferID = a.id
  amount : e.amount = a.amount
  parties : ((e.kind = .offer ∨ e.kind = .commit) ∧ e.fromBSO = a.fromBSO ∧ e.toBSO = a.toBSO) ∨
    ((e.kind = .accept ∨ e.kind = .reject ∨ e.kind = .acknowledge) ∧ e.fromBSO = a.toBSO ∧
      e.toBSO = a.fromBSO)

/-- Everything that an operation on the sender of a transfer does to its record and the money. The
results that the database knows may change with it. -/
inductive BSO.SenderEffect (a : Attempt) (b : BSO) : BSO → Prop
  | same (d : Command → Option TransferState) : SenderEffect a b { b with decided := d }
  | refuse (d : Command → Option TransferState) {t : Transfer} (new : b.outgoing a.id = none)
      (record : t.Sends a) (rejected : t.state = .rejected) :
      SenderEffect a b
        { b with outgoing := update b.outgoing a.id (some t), decided := d }
  | hold (d : Command → Option TransferState) {t : Transfer} (new : b.outgoing a.id = none)
      (record : t.Sends a) (reserved : t.state = .reserved) (own : a.fromBSO = b.id)
      (covered : a.amount ≤ b.balance) :
      SenderEffect a b
        { b with
          balance := b.balance - a.amount
          reserved := b.reserved + a.amount
          outgoing := update b.outgoing a.id (some t)
          decided := d }
  | debit (d : Command → Option TransferState) {t t' : Transfer} (found : b.outgoing a.id = some t)
      (reserved : t.state = .reserved) (record : t'.Sends a) (committed : t'.state = .committed) :
      SenderEffect a b
        { b with
          reserved := b.reserved - a.amount
          audit := b.audit ++ [⟨a.id, .committed, -a.amount⟩]
          outgoing := update b.outgoing a.id (some t')
          decided := d }
  | release (d : Command → Option TransferState) {t t' : Transfer}
      (found : b.outgoing a.id = some t) (reserved : t.state = .reserved) (record : t'.Sends a)
      (expired : t'.state = .expired) :
      SenderEffect a b
        { b with
          balance := b.balance + a.amount
          reserved := b.reserved - a.amount
          outgoing := update b.outgoing a.id (some t')
          decided := d }
  | acknowledge (d : Command → Option TransferState) {t t' : Transfer}
      (found : b.outgoing a.id = some t) (committed : t.state = .committed) (record : t'.Sends a)
      (acknowledged : t'.state = .acknowledged) :
      SenderEffect a b { b with outgoing := update b.outgoing a.id (some t'), decided := d }

/-- Everything that an operation on the receiver of a transfer does. -/
inductive BSO.ReceiverEffect (a : Attempt) (b : BSO) : BSO → Prop
  | same (d : Command → Option TransferState) : ReceiverEffect a b { b with decided := d }
  | accept (d : Command → Option TransferState) {t : Transfer} (new : b.incoming a.id = none)
      (record : t.Receives a) (accepted : t.state = .accepted) :
      ReceiverEffect a b { b with incoming := update b.incoming a.id (some t), decided := d }
  | credit (d : Command → Option TransferState) {t t' : Transfer}
      (found : b.incoming a.id = some t) (accepted : t.state = .accepted) (record : t'.Receives a)
      (committed : t'.state = .committed) :
      ReceiverEffect a b
        { b with
          balance := b.balance + a.amount
          audit := b.audit ++ [⟨a.id, .committed, a.amount⟩]
          incoming := update b.incoming a.id (some t')
          decided := d }

/-- Nothing changes for the transfer. -/
structure BSO.Apart (id : String) (b b' : BSO) : Prop where
  name : b'.id = b.id
  outgoing : b'.outgoing id = b.outgoing id
  incoming : b'.incoming id = b.incoming id
  decided : ∀ c r, c.transferID = id → b'.decided c = some r → b.decided c = some r

namespace BSO

variable {b : BSO} {a : Attempt} {e : Envelope}

section Apart

variable {b' : BSO} (ne : id ≠ a.id)
  (decided : ∀ c r, b'.decided c = some r → b.decided c = some r ∨ c.transferID = a.id)

include ne decided

theorem known_apart (own : c.transferID = id) (after : b'.decided c = some r) :
    b.decided c = some r :=
  (decided c r after).resolve_right fun other => ne (own.symm.trans other)

/-- An operation on the sender of another transfer. -/
theorem SenderEffect.apart (effect : SenderEffect a b b') : Apart id b b' := by
  cases effect with
  | same => exact ⟨rfl, rfl, rfl, fun _ _ => known_apart ne decided⟩
  | refuse | hold | debit | release | acknowledge =>
    exact ⟨rfl, update_of_ne ne .., rfl, fun _ _ => known_apart ne decided⟩

/-- An operation on the receiver of another transfer. -/
theorem ReceiverEffect.apart (effect : ReceiverEffect a b b') : Apart id b b' := by
  cases effect with
  | same => exact ⟨rfl, rfl, rfl, fun _ _ => known_apart ne decided⟩
  | accept | credit => exact ⟨rfl, rfl, update_of_ne ne .., fun _ _ => known_apart ne decided⟩

end Apart

/-- A command is answered with the result that is known, or carried out. -/
theorem mutate_cases (b : BSO) (command : Command) (fn : BSO → BSO × TransferState) :
    (∃ result, b.decided command = some result ∧ b.mutate command fn = (b, result)) ∨
      b.decided command = none ∧ b.mutate command fn =
        ({ (fn b).1 with decided := update (fn b).1.decided command (some (fn b).2) },
          (fn b).2) := by
  unfold mutate
  cases known : b.decided command with
  | some result => exact .inl ⟨result, rfl, rfl⟩
  | none => exact .inr ⟨rfl, rfl⟩

/-- What holds of the authority, and of every authority that the command may lead to. -/
theorem mutate_rule {P : BSO → Prop} {command : Command} {fn : BSO → BSO × TransferState}
    (same : P b) (carried : ∀ d, P { (fn b).1 with decided := d }) : P (b.mutate command fn).1 := by
  obtain ⟨result, -, eq⟩ | ⟨-, eq⟩ := mutate_cases b command fn
  · rwa [eq]
  · rw [eq]
    exact carried _

theorem reserve_effect (b : BSO) (a : Attempt) (round : Int) :
    SenderEffect a b (b.reserve a round).1 := by
  unfold reserve
  refine mutate_rule (P := SenderEffect a b) (.same b.decided) fun d => ?_
  cases found : b.outgoing a.id with
  | some t => exact .same _
  | none =>
    dsimp only
    split_ifs with refused
    · exact .refuse _ found ⟨rfl, rfl, rfl, by simp, by simp, by simp⟩ rfl
    · push Not at refused
      obtain ⟨own, -, positive, covered⟩ := refused
      exact .hold _ found ⟨rfl, rfl, rfl, by simp, by simp, fun _ => positive⟩ rfl own covered

theorem offer_effect (about : e.About a) (kind : e.kind = .offer) :
    ReceiverEffect a b (b.offer e).1 := by
  have parties : e.fromBSO = a.fromBSO := by
    have := about.parties
    simp only [kind] at this
    simp_all
  unfold offer
  refine mutate_rule (P := ReceiverEffect a b) (.same b.decided) fun d => ?_
  cases found : b.incoming e.transferID with
  | some t =>
    dsimp only
    split_ifs <;> exact .same _
  | none =>
    rw [about.transferID] at found ⊢
    exact .accept _ found ⟨rfl, parties, about.amount, .inl rfl, by simp⟩ rfl

/-- An offer commits nothing. -/
theorem incoming_offer (about : e.About a) {t : Transfer}
    (found : (b.offer e).1.incoming a.id = some t) (committed : t.state = .committed) :
    b.incoming a.id = some t := by
  unfold offer at found
  obtain ⟨result, known, eq⟩ | ⟨unknown, eq⟩ := mutate_cases b e.command _
  · rwa [eq] at found
  · rw [eq, about.transferID] at found
    cases before : b.incoming a.id with
    | some u =>
      simp only [before] at found
      split_ifs at found <;> exact before ▸ found
    | none =>
      simp only [before, update_self, Option.some.injEq] at found
      simp [← found] at committed

theorem commitSender_effect (about : e.About a)
    (records : ∀ t, b.outgoing a.id = some t → t.Sends a) :
    SenderEffect a b (b.commitSender e).1 := by
  unfold commitSender
  refine mutate_rule (P := SenderEffect a b) (.same b.decided) fun d => ?_
  cases found : b.outgoing e.transferID with
  | none => exact .same _
  | some t =>
    rw [about.transferID] at found
    have record := records t found
    dsimp only
    split_ifs with other open_ applied
    · exact .same _
    · -- A record that is open has not been debited.
      have := record.debit.mp applied
      have := record.state
      simp_all
    · have reserved : t.state = .reserved := open_.resolve_right record.state.2
      rw [record.id, record.amount]
      exact .debit _ found reserved ⟨rfl, record.toBSO, rfl, by simp, by simp,
        fun _ => record.positive (by simp [reserved])⟩ rfl
    · exact .same _

theorem commitReceiver_effect (about : e.About a)
    (records : ∀ t, b.incoming a.id = some t → t.Receives a) :
    ReceiverEffect a b (b.commitReceiver e).1 := by
  unfold commitReceiver
  refine mutate_rule (P := ReceiverEffect a b) (.same b.decided) fun d => ?_
  cases found : b.incoming e.transferID with
  | none => exact .same _
  | some t =>
    rw [about.transferID] at found
    have record := records t found
    dsimp only
    split_ifs with other open_ applied
    · exact .same _
    · have := record.credit.mp applied
      simp_all
    · rw [record.id, record.amount]
      exact .credit _ found open_ ⟨rfl, record.fromBSO, rfl, .inr rfl, by simp⟩ rfl
    · exact .same _

theorem ackSender_effect (about : e.About a)
    (records : ∀ t, b.outgoing a.id = some t → t.Sends a) : SenderEffect a b (b.ackSender e).1 := by
  unfold ackSender
  refine mutate_rule (P := SenderEffect a b) (.same b.decided) fun d => ?_
  cases found : b.outgoing e.transferID with
  | none => exact .same _
  | some t =>
    rw [about.transferID] at found
    have record := records t found
    dsimp only
    split_ifs with matching
    · rw [record.id]
      have applied := record.debit.mpr (.inl matching.2.2)
      exact .acknowledge _ found matching.2.2 ⟨rfl, record.toBSO, record.amount, by simp,
        by simpa using applied, fun _ => record.positive (by simp [matching.2.2])⟩ rfl
    · exact .same _

theorem expire_effect (records : ∀ t, b.outgoing a.id = some t → t.Sends a) :
    SenderEffect a b (b.expire a.id).1 := by
  unfold expire
  refine mutate_rule (P := SenderEffect a b) (.same b.decided) fun d => ?_
  cases found : b.outgoing a.id with
  | none => exact .same _
  | some t =>
    have record := records t found
    dsimp only
    split_ifs with open_
    · have reserved : t.state = .reserved := open_.resolve_right record.state.2
      rw [record.amount]
      refine .release _ found reserved ⟨record.id, record.toBSO, rfl, by simp, ?_,
        fun _ => record.positive (by simp [reserved])⟩ rfl
      have debit := record.debit
      simpa [reserved] using debit
    · exact .same _

/-- A result that is known after a command was known before it, or is what it was answered. -/
theorem decided_mutate {command : Command} {fn : BSO → BSO × TransferState}
    (keeps : (fn b).1.decided = b.decided) (known : (b.mutate command fn).1.decided c = some r) :
    b.decided c = some r ∨ c = command ∧ (b.mutate command fn).2 = r := by
  obtain ⟨result, -, eq⟩ | ⟨-, eq⟩ := mutate_cases b command fn
  · rw [eq] at known
    exact .inl known
  · rw [eq] at known ⊢
    by_cases same : c = command
    · subst same
      simp only [update_self, Option.some.injEq] at known
      exact .inr ⟨rfl, known⟩
    · change update (fn b).1.decided command (some (fn b).2) c = some r at known
      rw [update_of_ne same, keeps] at known
      exact .inl known

/-! Which results an operation makes known: only that of its own command. -/

theorem decided_reserve {round : Int} (known : (b.reserve a round).1.decided c = some r) :
    b.decided c = some r ∨ c = .reserve a.id ∧ (b.reserve a round).2 = r := by
  refine decided_mutate ?_ known
  cases b.outgoing a.id with
  | some t => rfl
  | none => dsimp only; split_ifs <;> rfl

theorem decided_expire (known : (b.expire id).1.decided c = some r) :
    b.decided c = some r ∨ c = .expire id ∧ (b.expire id).2 = r := by
  refine decided_mutate ?_ known
  cases b.outgoing id with
  | none => rfl
  | some t => dsimp only; split_ifs <;> rfl

theorem decided_offer (known : (b.offer e).1.decided c = some r) :
    b.decided c = some r ∨ c = e.command ∧ (b.offer e).2 = r := by
  refine decided_mutate ?_ known
  cases b.incoming e.transferID with
  | none => rfl
  | some t => dsimp only; split_ifs <;> rfl

theorem decided_commitReceiver (known : (b.commitReceiver e).1.decided c = some r) :
    b.decided c = some r ∨ c = e.command ∧ (b.commitReceiver e).2 = r := by
  refine decided_mutate ?_ known
  cases b.incoming e.transferID with
  | none => rfl
  | some t => dsimp only; split_ifs <;> rfl

theorem decided_ackSender (known : (b.ackSender e).1.decided c = some r) :
    b.decided c = some r ∨ c = e.command ∧ (b.ackSender e).2 = r := by
  refine decided_mutate ?_ known
  cases b.outgoing e.transferID with
  | none => rfl
  | some t => dsimp only; split_ifs <;> rfl

theorem decided_commitSender (known : (b.commitSender e).1.decided c = some r) :
    b.decided c = some r ∨ c = e.command ∧ (b.commitSender e).2 = r := by
  refine decided_mutate ?_ known
  cases b.outgoing e.transferID with
  | none => rfl
  | some t => dsimp only; split_ifs <;> rfl

/-- A commitment is answered by what was known, by the state that the record is in then, or by a
rejection. -/
theorem commitSender_result (about : e.About a)
    (records : ∀ t, b.outgoing a.id = some t → t.Sends a) :
    b.decided e.command = some (b.commitSender e).2 ∨
      (∃ t, (b.commitSender e).1.outgoing a.id = some t ∧ t.state = (b.commitSender e).2) ∨
      (b.commitSender e).2 = .rejected := by
  unfold commitSender
  obtain ⟨result, known, eq⟩ | ⟨unknown, eq⟩ := mutate_cases b e.command _
  · rw [eq]
    exact .inl known
  · rw [eq]
    refine .inr ?_
    cases found : b.outgoing e.transferID with
    | none => exact .inr rfl
    | some t =>
      rw [about.transferID] at found
      have record := records t found
      dsimp only
      split_ifs with other open_ applied
      · exact .inr rfl
      · exact .inl ⟨_, by rw [record.id]; exact update_self .., rfl⟩
      · exact .inl ⟨_, by rw [record.id]; exact update_self .., rfl⟩
      · exact .inl ⟨t, found, rfl⟩

end BSO

end OctetDB.Trust
