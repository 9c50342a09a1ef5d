import OctetDB.Trust.Ledger

/-!
# Transaction agents

An agent carries one transfer through trust and settlement. It is stepped by the worker that owns
it, and handed the messages of its transfer. An agent that waits for an answer is woken when its
deadline has passed, and one that cannot know how far its transfer is reads the records of both
authorities.

When a worker dies, its agents are restored from a checkpoint. Lists of names go through a
checkpoint as one text, with commas between the names.
-/

namespace OctetDB.Trust

inductive AgentPhase
  | created | trustCollect | trustAdmitted
  | offerReceiver | awaitAccept | commitSender | commitReceiver | awaitAcknowledge
  | reconcile
  | done | rejected | expired
  deriving DecidableEq, Repr

def AgentPhase.terminal : AgentPhase → Bool
  | .done | .rejected | .expired => true
  | _ => false

structure TransactionAgent where
  transferID : String
  senderBSO : String
  receiverBSO : String
  amount : Int
  phase : AgentPhase := .created
  retryCount : Nat := 0
  nextLogicalDeadline : Int := 0
  placementGeneration : Nat := 0
  transactionClass : TransactionClass
  applicationReference : String
  trustResolutionID : String := ""
  trustFailureReason : String := ""
  requiredRoles : List TrustRole := []
  trustThresholds : List Int := []
  trustCandidates : List String := []
  selectedProviders : List String := []
  collectedAttestationIDs : List String := []
  trustProviderIndex : Nat := 0
  senderPolicyVersion : Int := 0
  receiverPolicyVersion : Int := 0
  completedRound : Int := 0
  deriving DecidableEq, Repr

structure TrustResolution where
  resolutionID : String
  transferID : String
  requiredRoles : List TrustRole
  selectedProviders : List String
  attestationIDs : List String
  admitted : Bool
  failureReason : String
  senderPolicyVersion : Int
  receiverPolicyVersion : Int
  issuedAt : Int

structure Config where
  retryDelay : Int
  reservationExpiry : Int

/-- A number as it is kept in 64 bits. -/
def goInt (x : Int) : Int := x.bmod (2 ^ 64)

theorem goInt_eq {x : Int} (low : -2 ^ 63 ≤ x) (high : x < 2 ^ 63) : goInt x = x :=
  Int.bmod_eq_of_le_mul_two (by omega) (by omega)

/-- When an answer to a message of the round is due. -/
def Config.deadline (cfg : Config) (round : Int) : Int := goInt (round + cfg.retryDelay + 1)

/-- What the agents of a simulation share. -/
structure World where
  bsos : String → BSO
  activeIDs : List String
  trustRegistry : TrustRegistry
  resolutions : String → Option TrustResolution := fun _ => none

def World.on (w : World) (name : String) (op : BSO → BSO × TransferState) :
    World × TransferState :=
  ({ w with bsos := Function.update w.bsos name (op (w.bsos name)).1 }, (op (w.bsos name)).2)

namespace TransactionAgent

def attempt (a : TransactionAgent) : Attempt where
  id := a.transferID
  fromBSO := a.senderBSO
  toBSO := a.receiverBSO
  amount := a.amount
  transactionClass := a.transactionClass
  applicationReference := a.applicationReference

def start (attempt : Attempt) : TransactionAgent where
  transferID := attempt.id
  senderBSO := attempt.fromBSO
  receiverBSO := attempt.toBSO
  amount := attempt.amount
  transactionClass := attempt.transactionClass
  applicationReference := attempt.applicationReference

end TransactionAgent

/-! ## Trust -/

def subscriptionPredecessor (transferID : String) : Option String :=
  if transferID = "trust:subscription:2" then some "trust:subscription:1"
  else if transferID = "trust:subscription:3" then some "trust:subscription:2"
  else none

/-- A candidate is a role and a provider, in one text. -/
def candidateOf (role : TrustRole) (providerID : String) : String := role.text ++ "|" ++ providerID

/-- The texts before and behind the first bar, both empty if there is none. -/
def roleAndProvider (candidate : String) : String × String :=
  match candidate.toList.dropWhile (· ≠ '|') with
  | [] => ("", "")
  | _ :: provider => (String.ofList (candidate.toList.takeWhile (· ≠ '|')), String.ofList provider)

def TrustRole.ofText (text : String) : Option TrustRole :=
  TrustRole.all.find? fun role => role.text = text

namespace TransactionAgent

def threshold (a : TransactionAgent) (role : TrustRole) : Int :=
  (((a.requiredRoles.zip a.trustThresholds).find? fun p => p.1 = role).map Prod.snd).getD 0

/-- The providers that are selected for a role, each once. -/
def approvers (a : TransactionAgent) (role : TrustRole) : List String :=
  ((a.selectedProviders.filter fun selected => (roleAndProvider selected).1 = role.text).map
    fun selected => (roleAndProvider selected).2).dedup

def approvals (a : TransactionAgent) (role : TrustRole) : Int := (a.approvers role).length

def request (a : TransactionAgent) (role : TrustRole) (round : Int) : TrustRequest where
  role := role
  transferID := a.transferID
  senderBSO := a.senderBSO
  receiverBSO := a.receiverBSO
  subjectBSO := a.senderBSO
  applicationReference := a.applicationReference
  amount := a.amount
  transactionClass := a.transactionClass
  logicalTime := round
  requestedPolicyVersion := 1

/-- An approval is counted, unless the attestation was counted already. -/
def select (a : TransactionAgent) (role : TrustRole) (providerID : String)
    (attestation : IssuedAttestation) : TransactionAgent :=
  if attestation.id ∈ a.collectedAttestationIDs then a
  else
    { a with
      collectedAttestationIDs := a.collectedAttestationIDs ++ [attestation.id]
      selectedProviders := a.selectedProviders ++ [candidateOf role providerID] }

end TransactionAgent

def finishTrust (w : World) (a : TransactionAgent) (admitted : Bool) (failure : String)
    (round : Int) : World × TransactionAgent :=
  let resolution : TrustResolution :=
    { resolutionID := a.trustResolutionID
      transferID := a.transferID
      requiredRoles := a.requiredRoles
      selectedProviders := a.selectedProviders.map fun selected => (roleAndProvider selected).2
      attestationIDs := a.collectedAttestationIDs
      admitted := admitted
      failureReason := failure
      senderPolicyVersion := a.senderPolicyVersion
      receiverPolicyVersion := a.receiverPolicyVersion
      issuedAt := round }
  ({ w with resolutions := Function.update w.resolutions a.transferID (some resolution) },
    if admitted then { a with phase := .trustAdmitted }
    else { a with trustFailureReason := failure, phase := .rejected, completedRound := round })

/-- The count of approvals when there is no candidate left. -/
def decideTrust (w : World) (a : TransactionAgent) (round : Int) : World × TransactionAgent :=
  match a.requiredRoles.find? fun role => a.approvals role < a.threshold role with
  | some role =>
    finishTrust w a false ("role " ++ role.text ++ " received " ++ toString (a.approvals role) ++
      "/" ++ toString (a.threshold role) ++ " approvals") round
  | none => finishTrust w a true "" round

/-- An attestation that a provider has given for a role. -/
structure Answer where
  role : TrustRole
  providerID : String
  attestation : IssuedAttestation
  deriving DecidableEq, Repr

/-- Only approvals are counted. -/
def TransactionAgent.count (a : TransactionAgent) (answer : Answer) : TransactionAgent :=
  if answer.attestation.approves then
    a.select answer.role answer.providerID answer.attestation
  else a

/-- One candidate: what its provider answers, if it is still needed and gives a valid
attestation. -/
def consult (w : World) (a : TransactionAgent) (round : Int) (candidate : String) :
    Except String (World × Option Answer) :=
  let (text, providerID) := roleAndProvider candidate
  if text = "" then .error "invalid trust candidate"
  else
    match TrustRole.ofText text with
    -- Nothing is required of a text that is no role.
    | none => .ok (w, none)
    | some role =>
      if a.threshold role ≤ a.approvals role then .ok (w, none)
      else
        match w.trustRegistry.issue providerID (a.request role round) with
        | .error err => .error err
        | .ok (registry, attestation, _) =>
          let valid := attestation.filter fun x => x.id ≠ "" ∧ round ≤ x.validUntil
          .ok ({ w with trustRegistry := registry },
            valid.map fun x => { role, providerID, attestation := x })

/-- The loop over the candidates that are left. It ends with the first provider that answers. -/
def collectFrom (w : World) (a : TransactionAgent) (round : Int) :
    List String → Except String (World × TransactionAgent)
  | [] => .ok (decideTrust w a round)
  | candidate :: rest =>
    let a := { a with trustProviderIndex := a.trustProviderIndex + 1 }
    match consult w a round candidate with
    | .error err => .error err
    | .ok (w', none) => collectFrom w' a round rest
    | .ok (w', some answer) => .ok (w', a.count answer)

def collectTrust (w : World) (a : TransactionAgent) (round : Int) :
    Except String (World × TransactionAgent) :=
  collectFrom w a round (a.trustCandidates.drop a.trustProviderIndex)

/-- The first step of an agent: both policies are read and matched. -/
def resolveTrust (w : World) (a : TransactionAgent) (round : Int) : World × TransactionAgent :=
  let senderPolicy := (w.bsos a.senderBSO).trustPolicy
  let receiverPolicy := (w.bsos a.receiverBSO).trustPolicy
  let a :=
    { a with
      senderPolicyVersion := senderPolicy.version
      receiverPolicyVersion := receiverPolicy.version
      trustResolutionID := w.trustRegistry.stableID "resolution"
        (a.transferID ++ "|" ++ toString senderPolicy.version ++ "|" ++
          toString receiverPolicy.version) }
  match resolvePolicyIntersection senderPolicy receiverPolicy a.attempt round w.trustRegistry with
  | .error failure => finishTrust w a false failure round
  | .ok requirements =>
    let a :=
      { a with
        requiredRoles := a.requiredRoles ++ requirements.map RoleRequirement.role
        trustThresholds := a.trustThresholds ++ requirements.map RoleRequirement.threshold
        trustCandidates := a.trustCandidates ++
          requirements.flatMap fun req => req.candidates.map (candidateOf req.role) }
    if requirements = [] then finishTrust w a true "" round
    else (w, { a with phase := .trustCollect })

/-! Trust touches no authority, and leaves the transfer of an agent as it is. -/

/-- The phases up to the decision on trust. -/
def AgentPhase.Early (phase : AgentPhase) : Prop :=
  phase = .created ∨ phase = .trustCollect ∨ phase = .trustAdmitted ∨ phase = .rejected

/-- The authorities and the names of the open ones are as they were. -/
def World.SameBooks (w w' : World) : Prop := w'.bsos = w.bsos ∧ w'.activeIDs = w.activeIDs

theorem World.SameBooks.refl (w : World) : w.SameBooks w := ⟨rfl, rfl⟩

theorem finishTrust_frame (w : World) (a : TransactionAgent) (admitted : Bool) (failure : String)
    (round : Int) :
    w.SameBooks (finishTrust w a admitted failure round).1 ∧
      (finishTrust w a admitted failure round).2.attempt = a.attempt ∧
      (finishTrust w a admitted failure round).2.phase.Early := by
  cases admitted <;> exact ⟨.refl w, rfl, by simp [finishTrust, AgentPhase.Early]⟩

theorem decideTrust_frame (w : World) (a : TransactionAgent) (round : Int) :
    w.SameBooks (decideTrust w a round).1 ∧ (decideTrust w a round).2.attempt = a.attempt ∧
      (decideTrust w a round).2.phase.Early := by
  unfold decideTrust
  split <;> exact finishTrust_frame ..

theorem TransactionAgent.count_frame (a : TransactionAgent) (answer : Answer) :
    (a.count answer).attempt = a.attempt ∧ (a.count answer).phase = a.phase := by
  unfold TransactionAgent.count TransactionAgent.select
  split_ifs <;> exact ⟨rfl, rfl⟩

theorem consult_frame {w w' : World} {a : TransactionAgent} {round : Int} {candidate : String}
    {answer : Option Answer} (result : consult w a round candidate = .ok (w', answer)) :
    w.SameBooks w' := by
  unfold consult at result
  dsimp only at result
  split_ifs at result
  cases found : TrustRole.ofText (roleAndProvider candidate).1 with
  | none =>
    simp only [found] at result
    cases result
    exact .refl w
  | some role =>
    simp only [found] at result
    split_ifs at result
    · cases result
      exact .refl w
    cases issued : w.trustRegistry.issue (roleAndProvider candidate).2 (a.request role round) with
    | error err => simp [issued] at result
    | ok given =>
      simp only [issued] at result
      cases result
      exact ⟨rfl, rfl⟩

theorem collectFrom_frame {w w' : World} {a a' : TransactionAgent} {round : Int}
    {candidates : List String} (collecting : a.phase = .trustCollect)
    (result : collectFrom w a round candidates = .ok (w', a')) :
    w.SameBooks w' ∧ a'.attempt = a.attempt ∧ a'.phase.Early := by
  induction candidates generalizing w a with
  | nil =>
    have frame := decideTrust_frame w a round
    rwa [Except.ok.inj result] at frame
  | cons candidate rest ih =>
    rw [collectFrom] at result
    cases one : consult w { a with trustProviderIndex := a.trustProviderIndex + 1 } round
        candidate with
    | error err => simp [one] at result
    | ok given =>
      obtain ⟨w₁, answer⟩ := given
      simp only [one] at result
      cases answer with
      | none =>
        obtain ⟨later, attempt, early⟩ := ih (by exact collecting) result
        have first := consult_frame one
        exact ⟨⟨later.1.trans first.1, later.2.trans first.2⟩, attempt, early⟩
      | some answer =>
        cases result
        obtain ⟨attempt, phase⟩ := TransactionAgent.count_frame
          { a with trustProviderIndex := a.trustProviderIndex + 1 } answer
        exact ⟨consult_frame one, attempt, .inr (.inl (phase.trans collecting))⟩

theorem resolveTrust_frame (w : World) (a : TransactionAgent) (round : Int) :
    w.SameBooks (resolveTrust w a round).1 ∧ (resolveTrust w a round).2.attempt = a.attempt ∧
      (resolveTrust w a round).2.phase.Early := by
  unfold resolveTrust
  dsimp only
  split
  · exact finishTrust_frame ..
  · split_ifs
    · exact finishTrust_frame ..
    · exact ⟨.refl w, rfl, .inr (.inl rfl)⟩

/-! ## Settlement -/

/-- What handling a step or a message of an agent leaves: the shared state, the agent, and the
messages that are handed to the transport. -/
structure Handled where
  world : World
  agent : TransactionAgent
  sent : List Envelope := []

def reconcileAgent (w : World) (a : TransactionAgent) (round : Int) : Handled :=
  let out := ((w.bsos a.senderBSO).outgoing a.transferID).elim .unset Transfer.state
  let inc := ((w.bsos a.receiverBSO).incoming a.transferID).elim .unset Transfer.state
  if out = .acknowledged ∧ inc = .committed then
    { world := w, agent := { a with phase := .done, completedRound := round } }
  else if out = .committed ∧ inc = .committed then
    { world := w
      agent := { a with phase := .awaitAcknowledge }
      sent :=
        [newEnvelope a.transferID a.receiverBSO a.senderBSO a.amount .acknowledge .committed] }
  else if out = .committed then { world := w, agent := { a with phase := .commitReceiver } }
  else if inc = .accepted then { world := w, agent := { a with phase := .commitSender } }
  else if out = .reserved then { world := w, agent := { a with phase := .offerReceiver } }
  else
    let (w', state) := w.on a.senderBSO (·.expire a.transferID)
    { world := w'
      agent := { a with
        phase := if state = .expired then .expired else .rejected
        completedRound := round } }

/-- The message with which the acceptance is committed at the sender. -/
def TransactionAgent.acceptance (a : TransactionAgent) : Envelope :=
  newEnvelope a.transferID a.receiverBSO a.senderBSO a.amount .accept .accepted

def step (cfg : Config) (w : World) (a : TransactionAgent) (round : Int) : Except String Handled :=
  match a.phase with
  | .created =>
    -- A payment of a subscription waits until the one before it is admitted.
    if (subscriptionPredecessor a.transferID).all
        (fun prior => (w.resolutions prior).any TrustResolution.admitted) then
      let (w', a') := resolveTrust w a round
      .ok { world := w', agent := a' }
    else .ok { world := w, agent := a }
  | .trustCollect =>
    match collectTrust w a round with
    | .error err => .error err
    | .ok (w', a') => .ok { world := w', agent := a' }
  | .trustAdmitted =>
    if a.trustResolutionID = "" then .error "settlement attempted without trust resolution"
    else
      let (w', state) := w.on a.senderBSO (·.reserve a.attempt round)
      .ok { world := w'
            agent :=
              if state = .rejected then { a with phase := .rejected, completedRound := round }
              else { a with phase := .offerReceiver } }
  | .offerReceiver =>
    .ok { world := w
          agent := { a with
            phase := .awaitAccept
            nextLogicalDeadline := cfg.deadline round }
          sent := [newEnvelope a.transferID a.senderBSO a.receiverBSO a.amount .offer .reserved] }
  | .commitSender =>
    let (w', state) := w.on a.senderBSO (·.commitSender a.acceptance)
    .ok { world := w'
          agent := { a with
            phase := if state ≠ .committed ∧ state ≠ .acknowledged then .reconcile
              else .commitReceiver } }
  | .commitReceiver =>
    .ok { world := w
          agent := { a with
            phase := .awaitAcknowledge
            nextLogicalDeadline := cfg.deadline round }
          sent := [newEnvelope a.transferID a.senderBSO a.receiverBSO a.amount .commit .committed] }
  | .reconcile => .ok (reconcileAgent w a round)
  | _ => .ok { world := w, agent := a }

def Envelope.Valid (e : Envelope) : Prop :=
  e.fromBSO ≠ "" ∧ e.toBSO ≠ "" ∧ e.fromBSO ≠ e.toBSO ∧ e.transferID ≠ "" ∧ 0 < e.amount

instance (e : Envelope) : Decidable e.Valid :=
  inferInstanceAs (Decidable (_ ∧ _ ∧ _ ∧ _ ∧ _))

def deliver (w : World) (a : TransactionAgent) (e : Envelope) (round : Int) : Handled :=
  if ¬ e.Valid ∨ e.toBSO ∉ w.activeIDs then { world := w, agent := a }
  else
    match e.kind with
    | .offer =>
      let (w', state) := w.on e.toBSO (·.offer e)
      let reply := if state ≠ .accepted ∧ state ≠ .committed then .reject else .accept
      { world := w'
        agent := a
        sent := [newEnvelope a.transferID a.receiverBSO a.senderBSO a.amount reply state] }
    | .accept =>
      if a.phase = .awaitAccept then { world := w, agent := { a with phase := .commitSender } }
      else { world := w, agent := a }
    | .reject => { world := w, agent := { a with phase := .rejected, completedRound := round } }
    | .commit =>
      let (w', state) := w.on e.toBSO (·.commitReceiver e)
      { world := w'
        agent := a
        sent :=
          if state = .committed then
            [newEnvelope a.transferID a.receiverBSO a.senderBSO a.amount .acknowledge state]
          else [] }
    | .acknowledge =>
      let (w', state) := w.on e.toBSO (·.ackSender e)
      { world := w'
        agent :=
          if state = .acknowledged then { a with phase := .done, completedRound := round }
          else a }
    | .reconcile => { world := w, agent := a }

/-- An agent whose deadline has passed at the end of a round goes back to where it can act again. -/
def TransactionAgent.wakeDeadline (cfg : Config) (round : Int) (a : TransactionAgent) :
    Option TransactionAgent :=
  if (a.phase ≠ .awaitAccept ∧ a.phase ≠ .awaitAcknowledge) ∨
      goInt (round + 1) < a.nextLogicalDeadline then none
  else
    some { a with
      retryCount := a.retryCount + 1
      phase :=
        if cfg.reservationExpiry ≤ goInt (round - a.nextLogicalDeadline) then .reconcile
        else if a.phase = .awaitAccept then .offerReceiver
        else .commitReceiver }

/-! ## Checkpoints -/

def joinCSV (names : List String) : String :=
  String.ofList (List.intercalate [','] (names.map String.toList))

def splitCSV (value : String) : List String :=
  if value = "" then [] else (value.toList.splitOn ',').map String.ofList

/-- An agent that goes through a checkpoint. The round in which it was completed is not part of it.
Numbers, roles and single names come back as they were. -/
def TransactionAgent.restore (a : TransactionAgent) : TransactionAgent :=
  { a with
    trustCandidates := splitCSV (joinCSV a.trustCandidates)
    selectedProviders := splitCSV (joinCSV a.selectedProviders)
    collectedAttestationIDs := splitCSV (joinCSV a.collectedAttestationIDs)
    completedRound := 0 }

/-- The agent as it is placed on another worker. -/
def TransactionAgent.migrate (a : TransactionAgent) : TransactionAgent :=
  { a.restore with placementGeneration := a.placementGeneration + 1 }

end OctetDB.Trust
