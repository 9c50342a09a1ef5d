import OctetDB.Trust.Agent

/-!
# Trust admission

An agent asks one provider in a step, and keeps the names of those that have approved. When it has
no candidate left, it counts these names. Attestations are checked when they are given, and not
again when they are counted. So a transfer can be admitted on an attestation that has expired
meanwhile.

The names also go through checkpoints, in which commas separate them. A provider with a comma in its
name comes back as two.
-/

namespace OctetDB.Trust

/-! ## Names -/

theorem TrustRole.text_inj {r q : TrustRole} (same : r.text = q.text) : r = q := by
  revert same
  cases r <;> cases q <;> decide

theorem TrustRole.bar_notMem_text (role : TrustRole) : '|' ∉ role.text.toList := by
  cases role <;> decide

theorem roleAndProvider_candidateOf (role : TrustRole) (id : String) :
    roleAndProvider (candidateOf role id) = (role.text, id) := by
  have chars : (candidateOf role id).toList = role.text.toList ++ '|' :: id.toList := by
    simp [candidateOf]
  have bars : ∀ c ∈ role.text.toList, (decide (c ≠ '|')) = true := by
    intro c mem
    simp only [decide_eq_true_eq]
    rintro rfl
    exact role.bar_notMem_text mem
  unfold roleAndProvider
  rw [chars, List.dropWhile_append_of_pos bars, List.takeWhile_append_of_pos bars]
  simp

theorem candidateOf_inj {r q : TrustRole} {i j : String}
    (same : candidateOf r i = candidateOf q j) : r = q ∧ i = j := by
  have parts := congrArg roleAndProvider same
  rw [roleAndProvider_candidateOf, roleAndProvider_candidateOf, Prod.mk.injEq] at parts
  exact ⟨TrustRole.text_inj parts.1, parts.2⟩

/-- Names without commas come back from a checkpoint. -/
theorem splitCSV_joinCSV {names : List String} (plain : ∀ x ∈ names, ',' ∉ x.toList)
    (named : ∀ x ∈ names, x ≠ "") : splitCSV (joinCSV names) = names := by
  cases names with
  | nil => rfl
  | cons x xs =>
    have some_ : joinCSV (x :: xs) ≠ "" := by
      intro empty
      have chars := congrArg String.toList empty
      have first : x.toList ≠ [] := by
        simpa using named x (by simp)
      cases xs <;> simp_all [joinCSV, List.intercalate]
    rw [splitCSV, if_neg some_, joinCSV, String.toList_ofList, List.splitOn_intercalate]
    · simp
    · simpa using plain
    · simp

/-! ## Collecting -/

/-- The answer that has ended the loop over the candidates, if there was one. -/
def heard (w : World) (a : TransactionAgent) (round : Int) : List String → Option Answer
  | [] => none
  | candidate :: rest =>
    let a := { a with trustProviderIndex := a.trustProviderIndex + 1 }
    match consult w a round candidate with
    | .error _ => none
    | .ok (w', none) => heard w' a round rest
    | .ok (_, some answer) => some answer

/-- Everything that a provider can give: nothing, an attestation that it has cached and that is
still valid, or a new one, which is valid for 32 rounds at least. -/
theorem TrustRegistry.issue_ok {r r' : TrustRegistry} {id : String} {q : TrustRequest}
    {given : Option IssuedAttestation} {reused : Bool}
    (issued : r.issue id q = .ok (r', given, reused)) :
    given = none ∧ r' = r ∨
    (∃ p x, r.providers id = some p ∧ given = some x ∧ r' = r ∧ q.logicalTime ≤ x.validUntil ∧
      p.cache (attestationSemanticKey id q p.capabilities.policyVersion) = some x) ∨
    ∃ x, given = some x ∧ x.id ≠ "" ∧ q.logicalTime + 32 ≤ x.validUntil := by
  unfold TrustRegistry.issue at issued
  cases found : r.providers id with
  | none => simp [found] at issued
  | some p =>
    simp only [found] at issued
    split_ifs at issued
    · cases issued
      exact .inl ⟨rfl, rfl⟩
    have made {key : String} {f : IssuedAttestation → TrustRegistry}
        (create : (do let x ← p.create r q key; return (f x, some x, false)) =
          Except.ok (r', given, reused)) :
        ∃ x, given = some x ∧ x.id ≠ "" ∧ q.logicalTime + 32 ≤ x.validUntil := by
      unfold Provider.create TrustRegistry.stableID at create
      dsimp only at create
      cases role : q.role <;> rw [role] at create <;> cases create <;>
        exact ⟨_, rfl, by simp [String.ext_iff], by simp⟩
    cases cached : p.cache (attestationSemanticKey id q p.capabilities.policyVersion) with
    | none =>
      simp only [cached] at issued
      exact .inr (.inr (made issued))
    | some x =>
      simp only [cached] at issued
      split_ifs at issued with valid
      · cases issued
        exact .inr (.inl ⟨p, x, rfl, rfl, rfl, valid, cached⟩)
      · exact .inr (.inr (made issued))

/-- Nothing that an agent can be given in a round expires before the time: what is made in the
round is valid for 32 rounds, and what the providers have cached for it has expired already or
lasts. -/
structure Lasting (t : Int) (w : World) (a : TransactionAgent) (round : Int) : Prop where
  fresh : t ≤ round + 32
  cached : ∀ id p role x, w.trustRegistry.providers id = some p →
    p.cache (attestationSemanticKey id (a.request role round) p.capabilities.policyVersion) =
      some x → round ≤ x.validUntil → t ≤ x.validUntil

/-- A provider that does not answer leaves everything as it is. An answer comes from the provider
that was asked, and lasts. -/
theorem consult_ok {w w' : World} {a : TransactionAgent} {round : Int} {candidate : String}
    {answer : Option Answer} (result : consult w a round candidate = .ok (w', answer)) :
    answer = none ∧ w' = w ∨ ∃ x, answer = some x ∧
      roleAndProvider candidate = (x.role.text, x.providerID) ∧
      ∀ t, Lasting t w a round → t ≤ x.attestation.validUntil := by
  unfold consult at result
  dsimp only at result
  split_ifs at result
  cases found : TrustRole.ofText (roleAndProvider candidate).1 with
  | none =>
    simp only [found] at result
    cases result
    exact .inl ⟨rfl, rfl⟩
  | some role =>
    have text : (roleAndProvider candidate).1 = role.text := by
      have := List.find?_some found
      simpa [eq_comm] using this
    simp only [found] at result
    split_ifs at result
    · cases result
      exact .inl ⟨rfl, rfl⟩
    cases issued : w.trustRegistry.issue (roleAndProvider candidate).2 (a.request role round) with
    | error err => simp [issued] at result
    | ok given =>
      obtain ⟨registry, attestation, reused⟩ := given
      simp only [issued] at result
      obtain ⟨rfl, rfl⟩ | ⟨p, x, provider, rfl, rfl, valid, cached⟩ | ⟨x, rfl, named, lasts⟩ :=
        TrustRegistry.issue_ok issued
      · cases result
        exact .inl ⟨rfl, rfl⟩
      · rw [Option.filter_some] at result
        split_ifs at result
        · cases result
          exact .inr ⟨_, rfl, Prod.ext text rfl, fun t lasting =>
            lasting.cached _ p role x provider cached valid⟩
        · cases result
          exact .inl ⟨rfl, rfl⟩
      · have valid : round + 32 ≤ x.validUntil := lasts
        rw [Option.filter_some, if_pos (by simp [named]; omega)] at result
        cases result
        exact .inr ⟨_, rfl, Prod.ext text rfl, fun t lasting => lasting.fresh.trans valid⟩

/-- What has ended the loop lasts. -/
theorem heard_lasts {w : World} {a : TransactionAgent} {round t : Int} {candidates : List String}
    {x : Answer} (lasting : Lasting t w a round) (hear : heard w a round candidates = some x) :
    t ≤ x.attestation.validUntil := by
  induction candidates generalizing a with
  | nil => cases hear
  | cons candidate rest ih =>
    have next : Lasting t w { a with trustProviderIndex := a.trustProviderIndex + 1 } round :=
      ⟨lasting.fresh, lasting.cached⟩
    rw [heard] at hear
    cases one : consult w { a with trustProviderIndex := a.trustProviderIndex + 1 } round
        candidate with
    | error err => simp [one] at hear
    | ok given =>
      obtain ⟨w₁, answer⟩ := given
      simp only [one] at hear
      obtain ⟨rfl, rfl⟩ | ⟨y, rfl, -, lasts⟩ := consult_ok one
      · exact ih next hear
      · cases hear
        exact lasts t next

/-- A step of the collection: a provider has answered, or there is no candidate left and the count
is made. -/
theorem collectFrom_cases {w w' : World} {a a' : TransactionAgent} {round : Int}
    {candidates : List String} (result : collectFrom w a round candidates = .ok (w', a')) :
    (∃ x n, heard w a round candidates = some x ∧
      (∃ candidate ∈ candidates, roleAndProvider candidate = (x.role.text, x.providerID)) ∧
      a' = TransactionAgent.count { a with trustProviderIndex := n } x) ∨
    heard w a round candidates = none ∧ ∃ w₁ n,
      (w', a') = decideTrust w₁ { a with trustProviderIndex := n } round := by
  induction candidates generalizing w a with
  | nil => exact .inr ⟨rfl, w, a.trustProviderIndex, (Except.ok.inj result).symm⟩
  | cons candidate rest ih =>
    rw [collectFrom] at result
    rw [heard]
    cases one : consult w { a with trustProviderIndex := a.trustProviderIndex + 1 } round
        candidate with
    | error err => simp [one] at result
    | ok given =>
      obtain ⟨w₁, answer⟩ := given
      simp only [one] at result ⊢
      cases answer with
      | none =>
        obtain ⟨x, n, hear, ⟨other, mem, text⟩, eq⟩ | ⟨hear, w₂, n, eq⟩ := ih result
        · exact .inl ⟨x, n, hear, ⟨other, List.mem_cons_of_mem _ mem, text⟩, eq⟩
        · exact .inr ⟨hear, w₂, n, eq⟩
      | some x =>
        cases result
        obtain ⟨none_, -⟩ | ⟨y, same, text, -⟩ := consult_ok one
        · cases none_
        · cases same
          exact .inl ⟨x, _, rfl, ⟨candidate, List.mem_cons_self, text⟩, rfl⟩

/-- A run of an agent from its creation on, with the answers it was given. The registry may be any
in every step: attestations may be cached, and providers may change their minds. What holds when
they are asked, and which agents go through a checkpoint, are parameters. -/
inductive Collecting (w₀ : World) (attempt : Attempt) (now : Int)
    (asks : World → TransactionAgent → Int → Prop) (migrates : TransactionAgent → Prop) :
    TransactionAgent → List Answer → Prop
  | created {w : World} {a : TransactionAgent}
      (resolved : resolveTrust w₀ (.start attempt) now = (w, a))
      (collect : a.phase = .trustCollect) : Collecting w₀ attempt now asks migrates a []
  | collect {w w' : World} {a a' : TransactionAgent} {round : Int} {evidence : List Answer}
      (run : Collecting w₀ attempt now asks migrates a evidence) (asked : asks w a round)
      (result : collectTrust w a round = .ok (w', a')) (collect : a'.phase = .trustCollect) :
      Collecting w₀ attempt now asks migrates a' (evidence ++
        (heard w a round (a.trustCandidates.drop a.trustProviderIndex)).toList)
  | migrate {a : TransactionAgent} {evidence : List Answer}
      (run : Collecting w₀ attempt now asks migrates a evidence) (allowed : migrates a) :
      Collecting w₀ attempt now asks migrates a.migrate evidence

/-- The candidates of an agent, as they follow from the requirements. -/
def planned (reqs : List RoleRequirement) : List String :=
  reqs.flatMap fun req => req.candidates.map (candidateOf req.role)

/-- What an agent knows while it collects: the requirements as they were at its creation, and names
that each stand for an approval up to a time. -/
structure Gathers (t : Int) (reqs : List RoleRequirement) (a : TransactionAgent)
    (evidence : List Answer) : Prop where
  phase : a.phase = .trustCollect
  roles : a.requiredRoles = reqs.map RoleRequirement.role
  thresholds : a.trustThresholds = reqs.map RoleRequirement.threshold
  candidates : a.trustCandidates = planned reqs
  selected : ∀ s ∈ a.selectedProviders, s ∈ planned reqs ∧
    ∃ x ∈ evidence, s = candidateOf x.role x.providerID ∧ x.attestation.approves ∧
      t ≤ x.attestation.validUntil

/-- The names of the candidates have no commas. -/
def Plain (a : TransactionAgent) : Prop := ∀ c ∈ a.trustCandidates, ',' ∉ c.toList

theorem mem_planned {reqs : List RoleRequirement} {s : String} (mem : s ∈ planned reqs) :
    ∃ req ∈ reqs, ∃ id ∈ req.candidates, s = candidateOf req.role id := by
  simp only [planned, List.mem_flatMap, List.mem_map] at mem
  obtain ⟨req, found, id, listed, rfl⟩ := mem
  exact ⟨req, found, id, listed, rfl⟩

namespace Gathers

variable {t : Int} {reqs : List RoleRequirement} {a : TransactionAgent} {evidence : List Answer}

theorem count (gathers : Gathers t reqs a evidence) {x : Answer} {n : Nat} {candidate : String}
    (mem : candidate ∈ planned reqs)
    (text : roleAndProvider candidate = (x.role.text, x.providerID))
    (lasts : t ≤ x.attestation.validUntil) :
    Gathers t reqs (TransactionAgent.count { a with trustProviderIndex := n } x)
      (evidence ++ [x]) := by
  obtain ⟨req, found, id, listed, rfl⟩ := mem_planned mem
  rw [roleAndProvider_candidateOf, Prod.mk.injEq] at text
  obtain ⟨role, rfl⟩ := text
  have older : ∀ s ∈ a.selectedProviders, s ∈ planned reqs ∧
      ∃ y ∈ evidence ++ [x], s = candidateOf y.role y.providerID ∧ y.attestation.approves ∧
        t ≤ y.attestation.validUntil := by
    intro s here
    obtain ⟨plan, y, given, approval⟩ := gathers.selected s here
    exact ⟨plan, y, List.mem_append_left _ given, approval⟩
  have same : Gathers t reqs { a with trustProviderIndex := n } (evidence ++ [x]) :=
    { gathers with selected := older }
  unfold TransactionAgent.count TransactionAgent.select
  split_ifs with approves
  · exact same
  · refine { same with selected := fun s here => ?_ }
    obtain old | new := List.mem_append.mp here
    · exact older s old
    · rw [List.mem_singleton] at new
      rw [new]
      refine ⟨?_, x, by simp, rfl, approves, lasts⟩
      rwa [← TrustRole.text_inj role]
  · exact same

theorem migrate (gathers : Gathers t reqs a evidence) (plain : Plain a) :
    Gathers t reqs a.migrate evidence := by
  have named : ∀ s ∈ planned reqs, s ≠ "" := by
    intro s mem empty
    obtain ⟨req, -, id, -, rfl⟩ := mem_planned mem
    have parts := congrArg roleAndProvider empty
    rw [roleAndProvider_candidateOf, Prod.mk.injEq] at parts
    have none_ : req.role.text = "" := parts.1
    revert none_
    cases req.role <;> decide
  unfold Plain at plain
  rw [gathers.candidates] at plain
  have candidates : a.migrate.trustCandidates = planned reqs := by
    change splitCSV (joinCSV a.trustCandidates) = _
    rw [gathers.candidates]
    exact splitCSV_joinCSV plain named
  have selected : a.migrate.selectedProviders = a.selectedProviders :=
    splitCSV_joinCSV (fun s mem => plain s (gathers.selected s mem).1)
      fun s mem => named s (gathers.selected s mem).1
  exact ⟨gathers.phase, gathers.roles, gathers.thresholds, candidates,
    by rw [selected]; exact gathers.selected⟩

theorem threshold (gathers : Gathers t reqs a evidence)
    (distinct : (reqs.map RoleRequirement.role).Nodup) {req : RoleRequirement} (mem : req ∈ reqs) :
    a.threshold req.role = req.threshold := by
  have zipped : a.requiredRoles.zip a.trustThresholds =
      reqs.map fun r => (r.role, r.threshold) := by
    rw [gathers.roles, gathers.thresholds, List.zip_map']
  have found : (reqs.map fun r => (r.role, r.threshold)).find? (fun p => p.1 = req.role) =
      some (req.role, req.threshold) := by
    rw [List.find?_map]
    cases first : reqs.find? ((fun p => decide (p.1 = req.role)) ∘
        fun r : RoleRequirement => (r.role, r.threshold)) with
    | none =>
      have := List.find?_eq_none.mp first req mem
      simp at this
    | some other =>
      have role : other.role = req.role := by simpa using List.find?_some first
      have same : other = req :=
        List.inj_on_of_nodup_map distinct (List.mem_of_find?_eq_some first) mem role
      rw [same]
      rfl
  rw [TransactionAgent.threshold, zipped, found]
  rfl

end Gathers

/-! ## Admission -/

/-- The role is backed at the time: as many different providers as the stronger of the two rules
asks for, each accepted by both parties, revoked by neither and registered for the role, have
given an approving attestation that is still valid. -/
def Backed (sender receiver : TrustPolicy) (registry : TrustRegistry) (attempt : Attempt)
    (now : Int) (evidence : List Answer) (t : Int) (role : TrustRole) : Prop :=
  ∃ left right, policyRule sender role attempt now = some left ∧
    policyRule receiver role attempt now = some right ∧
    ∃ providers : List String, providers.Nodup ∧
      max left.threshold right.threshold ≤ providers.length ∧
      ∀ id ∈ providers, id ∈ left.acceptedProviders ∧ id ∈ right.acceptedProviders ∧
        id ∉ sender.revokedProviders ∧ id ∉ receiver.revokedProviders ∧ registry.Capable id role ∧
        ∃ x ∈ evidence, x.role = role ∧ x.providerID = id ∧ x.attestation.approves ∧
          t ≤ x.attestation.validUntil

/-- The admission of a transfer at the time is backed, for all roles that were required when its
agent was created. -/
def Sound (w₀ : World) (attempt : Attempt) (now : Int) (roles : List TrustRole)
    (evidence : List Answer) (t : Int) : Prop :=
  ∀ role ∈ roles, Backed (w₀.bsos attempt.fromBSO).trustPolicy (w₀.bsos attempt.toBSO).trustPolicy
    w₀.trustRegistry attempt now evidence t role

section Admission

variable {w₀ : World} {attempt : Attempt} {now t : Int} {a : TransactionAgent}
  {evidence : List Answer}

/-- The requirements of an agent that collects, as its creation has made them. -/
theorem resolveTrust_collect {w : World}
    (resolved : resolveTrust w₀ (.start attempt) now = (w, a)) (collect : a.phase = .trustCollect) :
    ∃ reqs, (∀ req ∈ reqs, req.Asked (w₀.bsos attempt.fromBSO).trustPolicy
        (w₀.bsos attempt.toBSO).trustPolicy attempt now w₀.trustRegistry) ∧
      (reqs.map RoleRequirement.role).Nodup ∧ reqs ≠ [] ∧ Gathers t reqs a [] := by
  unfold resolveTrust at resolved
  dsimp only at resolved
  cases policies : resolvePolicyIntersection (w₀.bsos attempt.fromBSO).trustPolicy
      (w₀.bsos attempt.toBSO).trustPolicy attempt now w₀.trustRegistry with
  | error failure =>
    simp only [TransactionAgent.start, TransactionAgent.attempt, policies] at resolved
    cases resolved
    simp at collect
  | ok reqs =>
    simp only [TransactionAgent.start, TransactionAgent.attempt, policies] at resolved
    split_ifs at resolved with none_
    · cases resolved
      simp at collect
    · cases resolved
      have indirect : ¬ DirectPath (w₀.bsos attempt.fromBSO).trustPolicy
          (w₀.bsos attempt.toBSO).trustPolicy attempt := by
        intro direct
        unfold resolvePolicyIntersection at policies
        split_ifs at policies
        exact none_ (Except.ok.inj policies).symm
      refine ⟨reqs, (resolve_ok policies indirect).1, ?_, none_, ⟨rfl, rfl, rfl, rfl, by simp⟩⟩
      unfold resolvePolicyIntersection at policies
      split_ifs at policies
      cases made : requirements (w₀.bsos attempt.fromBSO).trustPolicy
          (w₀.bsos attempt.toBSO).trustPolicy attempt now w₀.trustRegistry TrustRole.all with
      | error failure => simp [made] at policies
      | ok found =>
        cases found with
        | nil => simp [made] at policies
        | cons req rest =>
          simp only [made, Except.ok.injEq] at policies
          exact policies ▸ requirements_nodup made (by decide)

theorem Collecting.gathers (run : Collecting w₀ attempt now (Lasting t) Plain a evidence) :
    ∃ reqs, (∀ req ∈ reqs, req.Asked (w₀.bsos attempt.fromBSO).trustPolicy
        (w₀.bsos attempt.toBSO).trustPolicy attempt now w₀.trustRegistry) ∧
      (reqs.map RoleRequirement.role).Nodup ∧ reqs ≠ [] ∧ Gathers t reqs a evidence := by
  induction run with
  | created resolved collect => exact resolveTrust_collect resolved collect
  | @collect w w' a a' round evidence run lasting result collect ih =>
    obtain ⟨reqs, asked, distinct, some_, gathers⟩ := ih
    refine ⟨reqs, asked, distinct, some_, ?_⟩
    obtain ⟨x, n, hear, ⟨candidate, mem, text⟩, rfl⟩ | ⟨hear, w₁, n, eq⟩ := collectFrom_cases result
    · have lasts := heard_lasts lasting hear
      rw [hear]
      have planned := List.mem_of_mem_drop mem
      rw [gathers.candidates] at planned
      exact gathers.count planned text lasts
    · -- A count ends the collection.
      have decided : a' = (decideTrust w₁ { a with trustProviderIndex := n } round).2 :=
        congrArg Prod.snd eq
      rw [decided] at collect
      unfold decideTrust at collect
      split at collect <;> simp [finishTrust] at collect
  | migrate run plain ih =>
    obtain ⟨reqs, asked, distinct, some_, gathers⟩ := ih
    exact ⟨reqs, asked, distinct, some_, gathers.migrate plain⟩

/-- The names that are counted at an admission. -/
theorem decideTrust_admitted {w : World}
    (admitted : (decideTrust w a t).2.phase = .trustAdmitted) :
    (decideTrust w a t).2.requiredRoles = a.requiredRoles ∧
      ∀ role ∈ a.requiredRoles, a.threshold role ≤ a.approvals role := by
  unfold decideTrust at admitted ⊢
  cases missing : a.requiredRoles.find? (fun role => a.approvals role < a.threshold role) with
  | some role => simp [missing, finishTrust] at admitted
  | none =>
    refine ⟨rfl, fun role mem => ?_⟩
    have := List.find?_eq_none.mp missing role mem
    simpa using this

/-- A name that is counted for a role stands for a candidate of its requirement, and for an
approval. -/
theorem Gathers.approver {reqs : List RoleRequirement} (gathers : Gathers t reqs a evidence)
    (distinct : (reqs.map RoleRequirement.role).Nodup) {req : RoleRequirement} (mem : req ∈ reqs)
    {id : String} (approver : id ∈ a.approvers req.role) :
    id ∈ req.candidates ∧ ∃ x ∈ evidence, x.role = req.role ∧ x.providerID = id ∧
      x.attestation.approves ∧ t ≤ x.attestation.validUntil := by
  simp only [TransactionAgent.approvers, List.mem_dedup, List.mem_map, List.mem_filter,
    decide_eq_true_eq] at approver
  obtain ⟨s, ⟨selected, text⟩, rfl⟩ := approver
  obtain ⟨plan, x, given, eq, approval⟩ := gathers.selected s selected
  obtain ⟨other, found, id, listed, rfl⟩ := mem_planned plan
  rw [roleAndProvider_candidateOf] at text ⊢
  have same : other = req :=
    List.inj_on_of_nodup_map distinct found mem (TrustRole.text_inj text)
  subst same
  obtain ⟨role, provider⟩ := candidateOf_inj eq
  exact ⟨listed, x, given, role.symm, provider.symm, approval⟩

/-- An admission at a time is sound, in every run in which only agents whose candidates have plain
names go through checkpoints and nothing that is handed out expires before that time. -/
theorem admission_sound (run : Collecting w₀ attempt now (Lasting t) Plain a evidence)
    {w w' : World} {a' : TransactionAgent} (result : collectTrust w a t = .ok (w', a'))
    (admitted : a'.phase = .trustAdmitted) :
    a'.requiredRoles ≠ [] ∧ Sound w₀ attempt now a'.requiredRoles evidence t := by
  obtain ⟨reqs, asked, distinct, some_, gathers⟩ := run.gathers
  obtain ⟨x, n, -, -, rfl⟩ | ⟨-, w₁, n, eq⟩ := collectFrom_cases result
  · have phase := (TransactionAgent.count_frame { a with trustProviderIndex := n } x).2
    rw [phase] at admitted
    exact absurd (gathers.phase.symm.trans admitted) (by decide)
  obtain rfl : a' = (decideTrust w₁ { a with trustProviderIndex := n } t).2 := congrArg Prod.snd eq
  obtain ⟨roles, counted⟩ := decideTrust_admitted admitted
  have required : ({ a with trustProviderIndex := n } : TransactionAgent).requiredRoles =
      reqs.map RoleRequirement.role := gathers.roles
  rw [roles, required]
  refine ⟨by simpa using some_, fun role mem => ?_⟩
  obtain ⟨req, found, rfl⟩ := List.mem_map.mp mem
  obtain ⟨left, right, sent, received, threshold, candidates⟩ := (asked req found).rules
  refine ⟨left, right, sent, received, a.approvers req.role, List.nodup_dedup _, ?_,
    fun id here => ?_⟩
  · rw [← threshold, ← gathers.threshold distinct found]
    have enough : a.threshold req.role ≤ a.approvals req.role :=
      counted req.role (by rw [required]; exact mem)
    exact enough
  · obtain ⟨listed, approval⟩ := gathers.approver distinct found here
    rw [candidates, mem_intersectProviders] at listed
    obtain ⟨accepted, accepted', revoked, revoked', capable⟩ := listed
    exact ⟨accepted, accepted', revoked, revoked', capable, approval⟩

end Admission

/-! ## What goes wrong -/

/-- A role is not backed if fewer different providers than asked for have given an approval that is
still valid. -/
theorem not_backed {sender receiver : TrustPolicy} {registry : TrustRegistry} {attempt : Attempt}
    {now t : Int} {evidence : List Answer} {role : TrustRole} {rule : TrustRule}
    (asked : policyRule sender role attempt now = some rule) (valid : List String)
    (all : ∀ x ∈ evidence, x.role = role → t ≤ x.attestation.validUntil → x.providerID ∈ valid)
    (few : valid.length < rule.threshold) :
    ¬ Backed sender receiver registry attempt now evidence t role := by
  rintro ⟨left, right, sent, -, providers, distinct, enough, good⟩
  rw [asked, Option.some.injEq] at sent
  subst sent
  have sub : providers ⊆ valid := by
    intro id mem
    obtain ⟨-, -, -, -, -, x, given, role, rfl, -, time⟩ := good id mem
    exact all x given role time
  have count := (distinct.subperm sub).length_le
  have := le_max_left rule.threshold right.threshold
  omega

/-- Both parties ask for an identity and a risk of a purchase of 8. The identity was attested at
time 0 already, up to time 32. -/
def agedWorld : World where
  bsos name := { id := name, balance := 100, trustPolicy := cappedPolicy name }
  activeIDs := ["bso:000000", "bso:000001"]
  trustRegistry :=
    { twoProviders with
      providers := fun id =>
        (twoProviders.providers id).map fun p =>
          { p with
            cache := fun key =>
              if key = "trust:identity:acme|identity|purchase|1|bso:000000" then
                some { id := "attestation:0", providerID := "trust:identity:acme"
                       role := .identity, decision := .issued, issuedAt := 0, validUntil := 32 }
              else none } }

/-- The agent after a step of the collection. -/
def collected (w : World) (a : TransactionAgent) (round : Int) : TransactionAgent :=
  ((collectTrust w a round).toOption.map Prod.snd).getD a

/-- The answer of that step. -/
def answered (w : World) (a : TransactionAgent) (round : Int) : List Answer :=
  (heard w a round (a.trustCandidates.drop a.trustProviderIndex)).toList

theorem collectTrust_collected {w : World} {a : TransactionAgent} {round : Int}
    (good : (collectTrust w a round).toOption.isSome) :
    ∃ w', collectTrust w a round = .ok (w', collected w a round) := by
  unfold collected
  cases result : collectTrust w a round with
  | error err => simp [result, Except.toOption] at good
  | ok given => exact ⟨given.1, rfl⟩

theorem Collecting.next {w₀ w : World} {attempt : Attempt} {now round : Int}
    {asks : World → TransactionAgent → Int → Prop} {migrates : TransactionAgent → Prop}
    {a : TransactionAgent} {evidence : List Answer}
    (run : Collecting w₀ attempt now asks migrates a evidence) (asked : asks w a round)
    (good : (collectTrust w a round).toOption.isSome)
    (collect : (collected w a round).phase = .trustCollect) :
    Collecting w₀ attempt now asks migrates (collected w a round)
      (evidence ++ answered w a round) := by
  obtain ⟨w', result⟩ := collectTrust_collected good
  exact run.collect asked result collect

def created (w : World) (now : Int) : TransactionAgent :=
  (resolveTrust w (.start (purchase 8)) now).2

/-- The agent after two steps, which have answers of both providers. -/
def gathered (w : World) (now : Int) : TransactionAgent :=
  collected w (collected w (created w now) (now + 1)) (now + 2)

def answers (w : World) (now : Int) : List Answer :=
  [] ++ answered w (created w now) (now + 1) ++
    answered w (collected w (created w now) (now + 1)) (now + 2)

/-- The transfer is admitted at time 34 on an identity that is valid up to time 32 only. -/
theorem expired_identity_admitted : ∃ a evidence w' a',
    Collecting agedWorld (purchase 8) 31 (fun _ _ _ => True) Plain a evidence ∧
      collectTrust agedWorld a 34 = .ok (w', a') ∧ a'.phase = .trustAdmitted ∧
      ¬ Sound agedWorld (purchase 8) 31 a'.requiredRoles evidence 34 := by
  have start : Collecting agedWorld (purchase 8) 31 (fun _ _ _ => True) Plain
      (created agedWorld 31) [] := .created rfl (by decide +kernel)
  have first := start.next (w := agedWorld) trivial
    (show (collectTrust agedWorld _ (31 + 1)).toOption.isSome by decide +kernel) (by decide +kernel)
  have second : Collecting agedWorld (purchase 8) 31 (fun _ _ _ => True) Plain
      (gathered agedWorld 31) (answers agedWorld 31) :=
    first.next trivial (by decide +kernel) (by decide +kernel)
  obtain ⟨w', result⟩ := collectTrust_collected
    (show (collectTrust agedWorld (gathered agedWorld 31) 34).toOption.isSome by decide +kernel)
  refine ⟨_, _, w', _, second, result, by decide +kernel, fun sound => ?_⟩
  have asked : policyRule (cappedPolicy "bso:000000") .identity (purchase 8) 31 =
      some ⟨.identity, ["trust:identity:acme"], 1, 10, .purchase, 10000⟩ := by decide +kernel
  exact not_backed asked [] (by decide +kernel) (by decide) (sound .identity (by decide +kernel))

/-- When the cached identity has expired, everything that is handed out is new. -/
theorem aged_lasting (a : TransactionAgent) {round t : Int} (aged : 32 < round)
    (soon : t ≤ round + 32) : Lasting t agedWorld a round where
  fresh := soon
  cached := by
    intro id p role x found cached valid
    obtain ⟨q, -, rfl⟩ := Option.map_eq_some_iff.mp found
    dsimp only at cached
    split_ifs at cached
    cases cached
    exact absurd valid (not_le.mpr aged)

/-- Ten rounds later the identity is attested anew, and the admission is sound. -/
theorem renewed_identity_admitted :
    Collecting agedWorld (purchase 8) 41 (Lasting 44) Plain (gathered agedWorld 41)
      (answers agedWorld 41) ∧
    (collected agedWorld (gathered agedWorld 41) 44).phase = .trustAdmitted ∧
    Sound agedWorld (purchase 8) 41 (collected agedWorld (gathered agedWorld 41) 44).requiredRoles
      (answers agedWorld 41) 44 := by
  have start : Collecting agedWorld (purchase 8) 41 (Lasting 44) Plain (created agedWorld 41) [] :=
    .created rfl (by decide +kernel)
  have first := start.next (aged_lasting _ (by decide) (by decide))
    (show (collectTrust agedWorld _ (41 + 1)).toOption.isSome by decide +kernel) (by decide +kernel)
  have second : Collecting agedWorld (purchase 8) 41 (Lasting 44) Plain (gathered agedWorld 41)
      (answers agedWorld 41) :=
    first.next (aged_lasting _ (by decide) (by decide)) (by decide +kernel) (by decide +kernel)
  obtain ⟨w', result⟩ := collectTrust_collected
    (show (collectTrust agedWorld (gathered agedWorld 41) 44).toOption.isSome by decide +kernel)
  have admitted : (collected agedWorld (gathered agedWorld 41) 44).phase = .trustAdmitted := by
    decide +kernel
  exact ⟨second, admitted, (admission_sound second result admitted).2⟩

/-- Two identities are asked for. One of the two providers has a comma in its name, the other one is
not available. -/
def commaWorld : World where
  bsos name :=
    { id := name
      balance := 100
      trustPolicy :=
        { cappedPolicy name with
          rules := [⟨.identity, ["a,identity|b", "c"], 2, 10, .purchase, 10000⟩] } }
  activeIDs := ["bso:000000", "bso:000001"]
  trustRegistry :=
    { providers := fun id =>
        if id = "a,identity|b" then some { capabilities := ⟨id, [.identity], 1⟩ }
        else if id = "c" then
          some { capabilities := ⟨id, [.identity], 1⟩, unavailableFor := fun _ => true }
        else none
      digest := fun key => key }

/-- After a checkpoint, the one approval counts for two. -/
theorem comma_counted_twice : ∃ a evidence w' a',
    Collecting commaWorld (purchase 8) 31 (Lasting 33) (fun _ => True) a evidence ∧
      collectTrust commaWorld a 33 = .ok (w', a') ∧ a'.phase = .trustAdmitted ∧
      ¬ Sound commaWorld (purchase 8) 31 a'.requiredRoles evidence 33 := by
  have start : Collecting commaWorld (purchase 8) 31 (Lasting 33) (fun _ => True)
      (created commaWorld 31) [] := .created rfl (by decide +kernel)
  have lasting : Lasting 33 commaWorld (created commaWorld 31) 32 := by
    refine ⟨by decide, fun id p role x found cached => ?_⟩
    simp only [commaWorld] at found
    split_ifs at found <;> cases found <;> cases cached
  have first := start.next lasting (by decide +kernel) (by decide +kernel)
  have moved := first.migrate trivial
  obtain ⟨w', result⟩ := collectTrust_collected
    (show (collectTrust commaWorld (collected commaWorld (created commaWorld 31) 32).migrate
      33).toOption.isSome by decide +kernel)
  refine ⟨_, _, w', _, moved, result, by decide +kernel, fun sound => ?_⟩
  have asked : policyRule (commaWorld.bsos "bso:000000").trustPolicy .identity (purchase 8) 31 =
      some ⟨.identity, ["a,identity|b", "c"], 2, 10, .purchase, 10000⟩ := by decide +kernel
  exact not_backed asked ["a,identity|b"] (by decide +kernel) (by decide)
    (sound .identity (by decide +kernel))

end OctetDB.Trust
