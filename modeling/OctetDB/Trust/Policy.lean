import OctetDB.Lib.Fold
import OctetDB.Trust.Registry

/-!
# Trust policies

Each party of a transfer has rules: for a role and a class of transactions, up to an amount and a
time, which providers it accepts and how many of them have to approve. The requirements of a
transfer are what the rules of both parties ask for.

A rule that does not reach up to the amount or the time is not there for the transfer. So a role
whose rules end earlier than those of another role is not asked for beyond that end: requirements
shrink as amounts and times grow.
-/

namespace OctetDB.Trust

structure Attempt where
  id : String
  fromBSO : String
  toBSO : String
  amount : Int
  transactionClass : TransactionClass
  applicationReference : String
  deriving DecidableEq, Repr

structure TrustRule where
  role : TrustRole
  acceptedProviders : List String
  threshold : Int
  maxAmount : Int
  transactionClass : TransactionClass
  validUntil : Int
  deriving DecidableEq, Repr

structure TrustPolicy where
  bsoID : String
  version : Int
  directLimit : Int
  validUntil : Int
  rules : List TrustRule
  revokedProviders : List String
  deriving DecidableEq, Repr

structure RoleRequirement where
  role : TrustRole
  threshold : Int
  candidates : List String
  deriving DecidableEq, Repr

/-- The rule is about the attempt at the time, for the role. -/
def TrustRule.Covers (rule : TrustRule) (role : TrustRole) (attempt : Attempt) (now : Int) : Prop :=
  rule.role = role ∧ rule.transactionClass = attempt.transactionClass ∧ now ≤ rule.validUntil ∧
    attempt.amount ≤ rule.maxAmount

instance (rule : TrustRule) (role : TrustRole) (attempt : Attempt) (now : Int) :
    Decidable (rule.Covers role attempt now) :=
  inferInstanceAs (Decidable (_ ∧ _ ∧ _ ∧ _))

def policyRule (policy : TrustPolicy) (role : TrustRole) (attempt : Attempt) (now : Int) :
    Option TrustRule :=
  policy.rules.find? fun rule => rule.Covers role attempt now

def TrustPolicy.Covers (policy : TrustPolicy) (role : TrustRole) (attempt : Attempt) (now : Int) :
    Prop :=
  ∃ rule ∈ policy.rules, rule.Covers role attempt now

variable {role : TrustRole} {reqs : List RoleRequirement}

theorem policyRule_eq_none {policy : TrustPolicy} {attempt : Attempt} {now : Int} :
    policyRule policy role attempt now = none ↔ ¬ policy.Covers role attempt now := by
  simp [policyRule, TrustPolicy.Covers]

theorem covers_of_policyRule {policy : TrustPolicy} {attempt : Attempt} {now : Int}
    {rule : TrustRule} (found : policyRule policy role attempt now = some rule) :
    rule ∈ policy.rules ∧ rule.Covers role attempt now := by
  have covers := List.find?_some found
  exact ⟨List.mem_of_find?_eq_some found, by simpa using covers⟩

def intersectProviders (left right : List String) (sender receiver : TrustPolicy)
    (registry : TrustRegistry) (role : TrustRole) : List String :=
  left.filter fun id =>
    id ∈ right ∧ id ∉ sender.revokedProviders ∧ id ∉ receiver.revokedProviders ∧
      (registry.capabilities id).any (role ∈ ·.roles)

theorem mem_intersectProviders {left right : List String} {sender receiver : TrustPolicy}
    {registry : TrustRegistry} {id : String} :
    id ∈ intersectProviders left right sender receiver registry role ↔
      id ∈ left ∧ id ∈ right ∧ id ∉ sender.revokedProviders ∧ id ∉ receiver.revokedProviders ∧
        registry.Capable id role := by
  simp [intersectProviders, TrustRegistry.Capable, Option.any_eq_true]

/-- What is asked for a role, if anything. -/
def requirement (sender receiver : TrustPolicy) (attempt : Attempt) (now : Int)
    (registry : TrustRegistry) (role : TrustRole) : Except String (Option RoleRequirement) :=
  match policyRule sender role attempt now, policyRule receiver role attempt now with
  | none, none => .ok none
  | some left, some right =>
    let threshold := max left.threshold right.threshold
    if threshold < 1 then .error ("role " ++ role.text ++ " has invalid threshold")
    else
      let providers := intersectProviders left.acceptedProviders right.acceptedProviders sender
        receiver registry role
      if providers.length < threshold then
        .error ("role " ++ role.text ++ " has no sufficient provider intersection")
      else .ok (some { role, threshold, candidates := providers })
  | _, _ => .error ("role " ++ role.text ++ " is not mutually accepted")

/-- The loop over the roles: the first one that cannot be met ends it. -/
def requirements (sender receiver : TrustPolicy) (attempt : Attempt) (now : Int)
    (registry : TrustRegistry) : List TrustRole → Except String (List RoleRequirement)
  | [] => .ok []
  | role :: roles => do
    let asked ← requirement sender receiver attempt now registry role
    let rest ← requirements sender receiver attempt now registry roles
    return asked.toList ++ rest

/-- A transfer below the limits of both parties needs no provider. -/
def DirectPath (sender receiver : TrustPolicy) (attempt : Attempt) : Prop :=
  attempt.transactionClass = .direct ∧ attempt.amount ≤ sender.directLimit ∧
    attempt.amount ≤ receiver.directLimit

instance (sender receiver : TrustPolicy) (attempt : Attempt) :
    Decidable (DirectPath sender receiver attempt) :=
  inferInstanceAs (Decidable (_ ∧ _ ∧ _))

def resolvePolicyIntersection (sender receiver : TrustPolicy) (attempt : Attempt) (now : Int)
    (registry : TrustRegistry) : Except String (List RoleRequirement) :=
  if sender.validUntil < now ∨ receiver.validUntil < now then .error "policy expired"
  else if DirectPath sender receiver attempt then .ok []
  else
    match requirements sender receiver attempt now registry TrustRole.all with
    | .error failure => .error failure
    | .ok [] => .error "transaction class has no direct limit or trust rule"
    | .ok reqs => .ok reqs

section Requirements

variable {sender receiver : TrustPolicy} {attempt : Attempt} {now : Int} {registry : TrustRegistry}

/-- What a requirement that is made says: it comes from a rule of each side. -/
structure RoleRequirement.Asked (req : RoleRequirement) (sender receiver : TrustPolicy)
    (attempt : Attempt) (now : Int) (registry : TrustRegistry) : Prop where
  rules : ∃ left right, policyRule sender req.role attempt now = some left ∧
    policyRule receiver req.role attempt now = some right ∧
    req.threshold = max left.threshold right.threshold ∧
    req.candidates = intersectProviders left.acceptedProviders right.acceptedProviders sender
      receiver registry req.role
  positive : 1 ≤ req.threshold
  enough : req.threshold ≤ req.candidates.length

theorem requirement_some {req : RoleRequirement}
    (made : requirement sender receiver attempt now registry role = .ok (some req)) :
    req.role = role ∧ req.Asked sender receiver attempt now registry := by
  unfold requirement at made
  cases left : policyRule sender role attempt now with
  | none => cases right : policyRule receiver role attempt now <;> simp [left, right] at made
  | some l =>
    cases right : policyRule receiver role attempt now with
    | none => simp [left, right] at made
    | some r =>
      simp only [left, right] at made
      split_ifs at made with low few
      cases made
      exact ⟨rfl, ⟨⟨l, r, left, right, rfl, rfl⟩, not_lt.mp low, not_lt.mp few⟩⟩

/-- A role is left out only if neither side has a rule for it. -/
theorem requirement_none (made : requirement sender receiver attempt now registry role = .ok none) :
    ¬ sender.Covers role attempt now ∧ ¬ receiver.Covers role attempt now := by
  unfold requirement at made
  cases left : policyRule sender role attempt now with
  | none =>
    cases right : policyRule receiver role attempt now with
    | none => exact ⟨policyRule_eq_none.mp left, policyRule_eq_none.mp right⟩
    | some r => simp [left, right] at made
  | some l =>
    cases right : policyRule receiver role attempt now with
    | none => simp [left, right] at made
    | some r =>
      simp only [left, right] at made
      split_ifs at made
      cases made

theorem RoleRequirement.Asked.covers {req : RoleRequirement}
    (asked : req.Asked sender receiver attempt now registry) :
    sender.Covers req.role attempt now := by
  obtain ⟨left, right, found, -⟩ := asked.rules
  exact ⟨left, covers_of_policyRule found⟩

/-- The requirements made for a list of roles: each is asked for by both sides, and a role of the
list is among them exactly if the sender has a rule for it. -/
theorem requirements_ok {roles : List TrustRole}
    (made : requirements sender receiver attempt now registry roles = .ok reqs) :
    (∀ req ∈ reqs, req.Asked sender receiver attempt now registry) ∧
      ∀ role, role ∈ reqs.map RoleRequirement.role ↔
        role ∈ roles ∧ sender.Covers role attempt now := by
  induction roles generalizing reqs with
  | nil =>
    cases made
    simp
  | cons role roles ih =>
    obtain ⟨asked, first, made⟩ := bind_ok.mp made
    obtain ⟨rest, later, made⟩ := bind_ok.mp made
    cases made
    obtain ⟨all, iff⟩ := ih later
    cases asked with
    | none =>
      have uncovered := (requirement_none first).1
      refine ⟨all, fun other => ?_⟩
      simp only [Option.toList_none, List.nil_append, iff, List.mem_cons]
      grind
    | some req =>
      obtain ⟨rfl, ask⟩ := requirement_some first
      have covers := ask.covers
      refine ⟨by simpa using ⟨ask, all⟩, fun other => ?_⟩
      simp only [Option.toList_some, List.singleton_append, List.map_cons, List.mem_cons, iff]
      grind

/-- Outside of the direct path, the requirements of a transfer that is accepted. -/
theorem resolve_ok
    (accepted : resolvePolicyIntersection sender receiver attempt now registry = .ok reqs)
    (indirect : ¬ DirectPath sender receiver attempt) :
    (∀ req ∈ reqs, req.Asked sender receiver attempt now registry) ∧
      ∀ role, role ∈ reqs.map RoleRequirement.role ↔ sender.Covers role attempt now := by
  unfold resolvePolicyIntersection at accepted
  split_ifs at accepted
  cases made : requirements sender receiver attempt now registry TrustRole.all with
  | error failure => simp [made] at accepted
  | ok found =>
    cases found with
    | nil => simp [made] at accepted
    | cons req rest =>
      simp only [made, Except.ok.injEq] at accepted
      subst accepted
      obtain ⟨all, iff⟩ := requirements_ok made
      exact ⟨all, fun role => (iff role).trans (and_iff_right role.mem_all)⟩

theorem requirements_nodup {roles : List TrustRole}
    (made : requirements sender receiver attempt now registry roles = .ok reqs)
    (distinct : roles.Nodup) : (reqs.map RoleRequirement.role).Nodup := by
  induction roles generalizing reqs with
  | nil =>
    cases made
    exact List.nodup_nil
  | cons role roles ih =>
    obtain ⟨asked, first, made⟩ := bind_ok.mp made
    obtain ⟨rest, later, made⟩ := bind_ok.mp made
    cases made
    obtain ⟨new, others⟩ := List.nodup_cons.mp distinct
    cases asked with
    | none => simpa using ih later others
    | some req =>
      obtain ⟨rfl, -⟩ := requirement_some first
      rw [Option.toList_some, List.singleton_append, List.map_cons, List.nodup_cons]
      exact ⟨fun mem => new (((requirements_ok later).2 _).mp mem).1, ih later others⟩

end Requirements

/-! ## Growing amounts and times -/

section Growth

variable {sender receiver : TrustPolicy} {small large : Attempt} {s t : Int}
  {registry : TrustRegistry} {few many : List RoleRequirement}

/-- The roles asked for one attempt are all asked for another one, at another time, exactly if
every role for which a rule of the sender covers the first also has one that covers the second:
for a larger amount at a later time, one that reaches that far. -/
theorem roles_kept_iff
    (later : resolvePolicyIntersection sender receiver large t registry = .ok few)
    (earlier : resolvePolicyIntersection sender receiver small s registry = .ok many)
    (indirect : ¬ DirectPath sender receiver large)
    (indirect' : ¬ DirectPath sender receiver small) :
    many.map RoleRequirement.role ⊆ few.map RoleRequirement.role ↔
      ∀ role, sender.Covers role small s → sender.Covers role large t := by
  have before := (resolve_ok earlier indirect').2
  have behind := (resolve_ok later indirect).2
  constructor
  · intro kept role covers
    exact (behind role).mp (kept ((before role).mpr covers))
  · intro reach role mem
    exact (behind role).mpr (reach role ((before role).mp mem))

end Growth

def twoProviders : TrustRegistry where
  providers id :=
    if id = "trust:identity:acme" then some { capabilities := ⟨id, [.identity], 1⟩ }
    else if id = "trust:risk:safepay" then some { capabilities := ⟨id, [.risk], 1⟩ }
    else none
  digest key := key

def purchase (amount : Int) : Attempt where
  id := "trust:purchase"
  fromBSO := "bso:000000"
  toBSO := "bso:000001"
  amount := amount
  transactionClass := .purchase
  applicationReference := "order:123"

/-- Identities are attested up to an amount of 10, risks up to 100. -/
def cappedPolicy (bsoID : String) : TrustPolicy where
  bsoID := bsoID
  version := 1
  directLimit := 5
  validUntil := 10000
  rules :=
    [{ role := .identity, acceptedProviders := ["trust:identity:acme"], threshold := 1,
       maxAmount := 10, transactionClass := .purchase, validUntil := 10000 },
     { role := .risk, acceptedProviders := ["trust:risk:safepay"], threshold := 1,
       maxAmount := 100, transactionClass := .purchase, validUntil := 10000 }]
  revokedProviders := []

def riskOnly : List RoleRequirement := [⟨.risk, 1, ["trust:risk:safepay"]⟩]

/-- A purchase of 8 needs an identity, a later one of 80 does not. Neither is settled directly. -/
theorem identity_not_needed :
    let sender := cappedPolicy "bso:000000"
    let receiver := cappedPolicy "bso:000001"
    ∃ (s t : Int) (few many : List RoleRequirement),
      s ≤ t ∧ (purchase 8).amount ≤ (purchase 80).amount ∧
      ¬ DirectPath sender receiver (purchase 8) ∧ ¬ DirectPath sender receiver (purchase 80) ∧
      resolvePolicyIntersection sender receiver (purchase 80) t twoProviders = .ok few ∧
      resolvePolicyIntersection sender receiver (purchase 8) s twoProviders = .ok many ∧
      ¬ many.map RoleRequirement.role ⊆ few.map RoleRequirement.role := by
  refine ⟨1, 7, riskOnly, ⟨.identity, 1, ["trust:identity:acme"]⟩ :: riskOnly, by decide, by decide,
    by decide, by decide, ?_, ?_, ?_⟩
  · decide +kernel
  · decide +kernel
  · decide

theorem risk_kept :
    riskOnly.map RoleRequirement.role ⊆ riskOnly.map RoleRequirement.role ↔
      ∀ role, (cappedPolicy "bso:000000").Covers role (purchase 20) 1 →
        (cappedPolicy "bso:000000").Covers role (purchase 80) 7 :=
  roles_kept_iff (show resolvePolicyIntersection (cappedPolicy "bso:000000")
      (cappedPolicy "bso:000001") (purchase 80) 7 twoProviders = .ok riskOnly by decide +kernel)
    (show resolvePolicyIntersection (cappedPolicy "bso:000000") (cappedPolicy "bso:000001")
      (purchase 20) 1 twoProviders = .ok riskOnly by decide +kernel) (by decide) (by decide)

end OctetDB.Trust
