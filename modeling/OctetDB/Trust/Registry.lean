import Mathlib

/-!
# Trust providers and their attestations

A provider attests one of its roles for a transfer, in a deterministic way. Attestations are cached
under a key of what they are about, and one that is still valid is handed out again.

The digest behind an identity is a parameter: nothing below depends on which one it is. What a
provider retains of a request is left out, since no decision reads it.
-/

namespace OctetDB.Trust

inductive TrustRole
  | identity | risk | authorization | escrow | dispute
  deriving DecidableEq, Repr

def TrustRole.text : TrustRole → String
  | .identity => "identity"
  | .risk => "risk"
  | .authorization => "authorization"
  | .escrow => "escrow"
  | .dispute => "dispute"

/-- The roles in the order in which policies are matched. -/
def TrustRole.all : List TrustRole := [.identity, .risk, .authorization, .escrow, .dispute]

theorem TrustRole.mem_all (role : TrustRole) : role ∈ TrustRole.all := by
  cases role <;> decide

inductive TransactionClass
  | direct | purchase | subscription | donation | marketplace | institutionSettlement
  deriving DecidableEq, Repr

def TransactionClass.text : TransactionClass → String
  | .direct => "direct"
  | .purchase => "purchase"
  | .subscription => "subscription"
  | .donation => "donation"
  | .marketplace => "marketplace"
  | .institutionSettlement => "institution_settlement"

inductive RiskDecision
  | approve | reject | challenge
  deriving DecidableEq, Repr

/-- What an attestation says. The source keeps it as a text, for all roles together. -/
inductive Decision
  | issued
  | risk (decision : RiskDecision)
  | accepted
  | noAction | refundApproved | refundRejected
  deriving DecidableEq, Repr

structure IssuedAttestation where
  id : String
  providerID : String
  role : TrustRole
  decision : Decision
  issuedAt : Int
  validUntil : Int
  deriving DecidableEq, Repr

def IssuedAttestation.approves (a : IssuedAttestation) : Bool :=
  match a.role with
  | .risk => a.decision = .risk .approve
  | .escrow => a.decision = .accepted
  | .dispute => a.decision = .noAction ∨ a.decision = .refundApproved
  | _ => a.decision = .issued

structure Capabilities where
  providerID : String
  roles : List TrustRole
  policyVersion : Int
  deriving DecidableEq, Repr

structure TrustRequest where
  role : TrustRole
  transferID : String
  senderBSO : String
  receiverBSO : String
  subjectBSO : String
  applicationReference : String
  amount : Int
  transactionClass : TransactionClass
  logicalTime : Int
  requestedPolicyVersion : Int

structure Provider where
  capabilities : Capabilities
  unavailableFor : TransactionClass → Bool := fun _ => false
  riskDefault : RiskDecision := .approve
  riskOverrides : String → Option RiskDecision := fun _ => none
  cache : String → Option IssuedAttestation := fun _ => none

structure TrustRegistry where
  providers : String → Option Provider
  /-- The text of the shortened digest of a key. -/
  digest : String → String

def TrustRegistry.capabilities (r : TrustRegistry) (id : String) : Option Capabilities :=
  (r.providers id).map Provider.capabilities

def TrustRegistry.Capable (r : TrustRegistry) (id : String) (role : TrustRole) : Prop :=
  ∃ c, r.capabilities id = some c ∧ role ∈ c.roles

def attestationSemanticKey (providerID : String) (request : TrustRequest) (policyVersion : Int) :
    String :=
  let base :=
    providerID ++ "|" ++ request.role.text ++ "|" ++ request.transactionClass.text ++ "|" ++
    toString policyVersion
  match request.role with
  | .identity => base ++ "|" ++ request.subjectBSO
  | .authorization =>
    base ++ "|" ++ request.subjectBSO ++ "|" ++ request.applicationReference ++ "|" ++
      toString request.amount
  | _ => base ++ "|" ++ request.transferID

def TrustRegistry.stableID (r : TrustRegistry) (kind key : String) : String :=
  kind ++ ":" ++ r.digest key

/-- The decision of a provider on the risk of a transfer. -/
def Provider.riskDecision (p : Provider) (transferID : String) : RiskDecision :=
  if "challenge".toList <:+: transferID.toList then .challenge
  else if "threshold-fail".toList <:+: transferID.toList ∧
      p.capabilities.providerID ≠ "trust:risk:a" then .reject
  else (p.riskOverrides transferID).getD p.riskDefault

def Provider.create (p : Provider) (r : TrustRegistry) (q : TrustRequest) (key : String) :
    Except String IssuedAttestation :=
  let attest decision validity : IssuedAttestation :=
    { id := r.stableID "attestation" key
      providerID := p.capabilities.providerID
      role := q.role
      decision := decision
      issuedAt := q.logicalTime
      validUntil := q.logicalTime + validity }
  match q.role with
  | .identity => .ok (attest .issued 32)
  | .risk => .ok (attest (.risk (p.riskDecision q.transferID)) 32)
  | .authorization => .ok (attest .issued 96)
  | role => .error ("role " ++ role.text ++ " issuance is not enabled in M0 workloads")

/-- A provider that is not available gives no attestation, and no error. The flag says whether the
attestation was there already. -/
def TrustRegistry.issue (r : TrustRegistry) (providerID : String) (request : TrustRequest) :
    Except String (TrustRegistry × Option IssuedAttestation × Bool) :=
  match r.providers providerID with
  | none => .error ("unknown provider " ++ providerID)
  | some p =>
    if request.role ∉ p.capabilities.roles then
      .error ("provider " ++ providerID ++ " cannot attest role " ++ request.role.text)
    else if p.unavailableFor request.transactionClass then .ok (r, none, false)
    else
      let key := attestationSemanticKey providerID request p.capabilities.policyVersion
      let fresh (issuanceKey : String) := do
        let issued ← p.create r request issuanceKey
        let p' := { p with cache := Function.update p.cache key (some issued) }
        return ({ r with providers := Function.update r.providers providerID (some p') },
          some issued, false)
      match p.cache key with
      | none => fresh key
      | some cached =>
        if request.logicalTime ≤ cached.validUntil then .ok (r, some cached, true)
        else fresh (key ++ "|refresh:" ++ toString request.logicalTime)

end OctetDB.Trust
