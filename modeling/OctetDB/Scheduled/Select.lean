import OctetDB.Scheduled.Plan

/-!
# The choice of the next request

Of the pending requests those are eligible whose token nobody owns; a read is eligible once its
batch is full or it has waited long enough. The strategy chooses among them: the oldest one, or
what a policy prefers. A policy keeps its choice for a while, and prefers another action only if
its score is better by a margin. A request that has waited too long goes first.
-/

namespace OctetDB.Scheduled

inductive Action where
  | oldest
  | highPriority
  | aged
  | batch
  | wait
  deriving DecidableEq, Repr

def policyHysteresis : Int := 25
def policyMinCommit : Int := 2

/-! ## Policies -/

/-- What a policy has chosen last, with its score, and how often. -/
structure ConventionalPolicy where
  hasCurrent : Bool := false
  current : Action := .oldest
  score : Int := 0
  commitAge : Int := 0
  deriving DecidableEq, Repr

def ConventionalPolicy.selectAction (p : ConventionalPolicy) (rawAction : Action) (rawScore : Int)
    (emergency : Bool) (eligible : Action → Bool) : Action × ConventionalPolicy :=
  if emergency then (.aged, p)
  else
    let holds := p.hasCurrent && eligible p.current &&
      (decide (p.commitAge < policyMinCommit) || decide (rawScore ≤ p.score + policyHysteresis))
    let chosen := if holds then p.current else rawAction
    let score := if holds then p.score else rawScore
    if !p.hasCurrent || chosen != p.current then
      (chosen, { hasCurrent := true, current := chosen, score := score, commitAge := 1 })
    else (chosen, { p with score := score, commitAge := p.commitAge + 1 })

section Utility

variable {α : Type} [DecidableEq α]

structure UtilCandidate (α : Type) where
  valid : Bool
  value : α
  score : Int

structure UtilitySite (α : Type) where
  hasCurrent : Bool := false
  current : α
  score : Int := 0
  commitAge : Int := 0

def bestCandidate (candidates : List (UtilCandidate α)) : Option (UtilCandidate α) :=
  candidates.foldl (fun next c =>
    if c.valid && next.all (fun n => decide (c.score > n.score)) then some c else next) none

def utilSelectScalar (site : UtilitySite α) (hysteresis minCommit : Int)
    (candidates : List (UtilCandidate α)) (elseValue : α) : α × UtilitySite α :=
  let next := (bestCandidate candidates).getD { valid := true, value := elseValue, score := 0 }
  let holds := site.hasCurrent &&
    candidates.any (fun c => c.valid && decide (c.value = site.current)) &&
    (decide (site.commitAge < minCommit) || decide (next.score ≤ site.score + hysteresis))
  let value := if holds then site.current else next.value
  let score := if holds then site.score else next.score
  if !site.hasCurrent || decide (site.current ≠ value) then
    (value, { hasCurrent := true, current := value, score := score, commitAge := 1 })
  else (value, { site with score := score, commitAge := site.commitAge + 1 })

end Utility

structure FairBoard where
  oldestEligible : Bool
  highEligible : Bool
  agedEligible : Bool
  batchEligible : Bool
  oldestScore : Int
  highScore : Int
  batchScore : Int

def persistentFairController (site : UtilitySite Action) (b : FairBoard) :
    Action × UtilitySite Action :=
  if b.agedEligible then (.aged, site)
  else
    utilSelectScalar site 25 2
      [{ valid := b.highEligible, value := .highPriority, score := b.highScore },
        { valid := b.batchEligible, value := .batch, score := b.batchScore },
        { valid := b.oldestEligible, value := .oldest, score := b.oldestScore }] .wait

def persistentParityController (site : UtilitySite Action) (oldestEligible : Bool) :
    Action × UtilitySite Action :=
  utilSelectScalar site 0 1 [{ valid := oldestEligible, value := .oldest, score := 1 }] .wait

structure Policies where
  goFair : ConventionalPolicy := {}
  parity : UtilitySite Action := { current := .oldest }
  fair : UtilitySite Action := { current := .oldest }

/-! ## Candidates -/

structure Owner where
  request : Nat
  acquiredAt : Int
  deriving DecidableEq, Repr

abbrev Owned := ConflictToken → Option Owner

/-- Another request owns the token. -/
def Request.busy (owned : Owned) (r : Request) : Bool := r.token.valid && (owned r.token).isSome

/-- Notes since when requests have been waiting for their tokens. -/
def markWaiting (owned : Owned) (now : Int) (pending : List Request) : List Request :=
  pending.map fun r =>
    if r.busy owned && r.waitingSince.isNone then { r with waitingSince := some now } else r

structure Candidate where
  index : Nat
  priority : Nat
  batchCount : Nat
  age : Int
  deriving DecidableEq, Repr

section Candidates

variable (cfg : Config) (pending : List Request) (owned : Owned) (now : Int)

/-- How many pending requests the one at `i` can be batched with, itself included. -/
def batchCount (i : Nat) (r : Request) : Nat :=
  if r.op.kind.isRead then
    1 + pending.zipIdx.countP fun e => e.2 != i && compatible r.op.kind e.1.op.kind
  else 1

def candidate (i : Nat) (r : Request) : Option Candidate :=
  let age := now - r.queuedAt
  let count := batchCount pending i r
  if r.busy owned then none
  else if r.op.kind.isRead && decide (count < cfg.maxBatch) &&
      decide (age < cfg.batchWait) then none
  else
    some
      { index := i
        priority := ((command r.op.kind).getD {}).priority
        batchCount := count
        age := age }

def legal : List Candidate :=
  pending.zipIdx.filterMap fun e => candidate cfg pending owned now e.2 e.1

def sequenceAt (i : Nat) : Int64 := (pending[i]?.map (·.op.sequence)).getD 0

/-- A better candidate for the highest priority. -/
def outranks (c high : Candidate) : Bool :=
  c.priority > high.priority || (c.priority == high.priority &&
    (c.age > high.age || (c.age == high.age &&
      sequenceAt pending c.index < sequenceAt pending high.index)))

def highest (first : Candidate) (candidates : List Candidate) : Candidate :=
  candidates.foldl (fun high c => if outranks pending c high then c else high) first

def largestBatch (candidates : List Candidate) : Option Candidate :=
  candidates.foldl (fun best c =>
    if c.batchCount > 1 && best.all (fun b => c.batchCount > b.batchCount ||
      (c.batchCount == b.batchCount && c.age > b.age)) then some c else best) none

def starvationThreshold : Int := max ((5 * cfg.batchWait).bmod (2 ^ 64)) 5000000

def longestAged (candidates : List Candidate) : Option Candidate :=
  candidates.foldl (fun best c =>
    if c.age ≥ starvationThreshold cfg && best.all (fun b => c.age > b.age ||
      (c.age == b.age && sequenceAt pending c.index < sequenceAt pending b.index)) then some c
    else best) none

def ageUnits (age : Int) : Int :=
  let units := age.tdiv 100000
  if units > 100 then 100 else units

/-- The action that a policy chooses for the candidates, and the policies behind it. -/
def chooseAction (policies : Policies) (oldest high : Candidate) (batch aged : Option Candidate) :
    Action × Policies :=
  let oldestScore := 100 + ageUnits oldest.age
  let highScore := 300 + ageUnits high.age
  let batchScore := (batch.map fun b => 200 + 25 * (b.batchCount : Int)).getD 0
  let raw : Action × Int := (.oldest, oldestScore)
  let raw := if highScore > raw.2 then (Action.highPriority, highScore) else raw
  let raw := if batch.isSome && decide (batchScore > raw.2) then (Action.batch, batchScore) else raw
  let raw := if aged.isSome then (Action.aged, 1000) else raw
  match cfg.strategy with
  | .priority | .plantCharacterization | .observerShadow | .reactive =>
    let (chosen, goFair) := policies.goFair.selectAction raw.1 raw.2 aged.isSome fun action =>
      action == .oldest || action == .highPriority || (action == .batch && batch.isSome)
    (chosen, { policies with goFair := goFair })
  | _ =>
    let (chosen, fair) := persistentFairController policies.fair
      { oldestEligible := true
        highEligible := true
        agedEligible := aged.isSome
        batchEligible := batch.isSome
        oldestScore := oldestScore
        highScore := highScore
        batchScore := batchScore }
    (chosen, { policies with fair := fair })

/-- The place of the pending request that is dispatched next, if any. -/
def selectRequest (policies : Policies) : Option Nat × Policies :=
  match legal cfg pending owned now with
  | [] => (none, policies)
  | oldest :: rest =>
    match cfg.strategy with
    | .centralized | .agentic => (some oldest.index, policies)
    | .parity =>
      let (chosen, parity) := persistentParityController policies.parity true
      (if chosen = .oldest then some oldest.index else none, { policies with parity := parity })
    | _ =>
      let high := highest pending oldest (oldest :: rest)
      let batch := largestBatch (oldest :: rest)
      let aged := longestAged cfg pending (oldest :: rest)
      let (chosen, policies) := chooseAction cfg policies oldest high batch aged
      let selected : Option Candidate :=
        match chosen with
        | .oldest => some oldest
        | .highPriority => some high
        | .aged => aged
        | .batch => batch
        | .wait => none
      (selected.map (·.index), policies)

end Candidates

/-! ## What is chosen is eligible -/

section Eligible

variable {cfg : Config} {pending : List Request} {owned : Owned} {now : Int}

/-- A candidate is a pending request whose token nobody owns. -/
theorem of_mem_legal {c : Candidate} (mem : c ∈ legal cfg pending owned now) :
    ∃ r, pending[c.index]? = some r ∧ r.busy owned = false := by
  obtain ⟨⟨r, i⟩, listed, eq⟩ := List.mem_filterMap.mp mem
  have place := List.mk_mem_zipIdx_iff_getElem?.mp listed
  simp only [candidate] at eq
  split at eq
  · cases eq
  · rename_i free
    split at eq
    · cases eq
    · cases eq
      exact ⟨r, place, by simpa using free⟩

theorem foldl_pick_mem {α : Type} {pick : α → α → Bool} {first : α} {rest : List α} :
    rest.foldl (fun best c => if pick c best then c else best) first ∈ first :: rest := by
  induction rest generalizing first with
  | nil => simp
  | cons c rest ih =>
    rw [List.foldl_cons]
    split
    · exact List.mem_cons_of_mem _ ih
    · rcases List.mem_cons.mp (@ih first) with same | later
      · rw [same]
        exact List.mem_cons_self
      · exact List.mem_cons_of_mem _ (List.mem_cons_of_mem _ later)

theorem foldl_pick_option_mem {α : Type} {pick : α → Option α → Bool} {rest : List α}
    {start : Option α} {c : α}
    (eq : rest.foldl (fun best c => if pick c best then some c else best) start = some c) :
    start = some c ∨ c ∈ rest := by
  induction rest generalizing start with
  | nil => exact .inl eq
  | cons d rest ih =>
    rw [List.foldl_cons] at eq
    rcases ih eq with first | later
    · split at first
      · cases first
        exact .inr List.mem_cons_self
      · exact .inl first
    · exact .inr (List.mem_cons_of_mem _ later)

theorem highest_mem {first : Candidate} {rest : List Candidate} :
    highest pending first (first :: rest) ∈ first :: rest := by
  have mem : highest pending first (first :: rest) ∈ first :: first :: rest := foldl_pick_mem
  rcases List.mem_cons.mp mem with same | later
  · rw [same]
    exact List.mem_cons_self
  · exact later

theorem largestBatch_mem {candidates : List Candidate} {c : Candidate}
    (eq : largestBatch candidates = some c) : c ∈ candidates :=
  (foldl_pick_option_mem eq).resolve_left (by simp)

theorem longestAged_mem {candidates : List Candidate} {c : Candidate}
    (eq : longestAged cfg pending candidates = some c) : c ∈ candidates :=
  (foldl_pick_option_mem eq).resolve_left (by simp)

/-- The chosen request is pending, and nobody owns its token. -/
theorem selectRequest_eligible {policies next : Policies} {i : Nat}
    (eq : selectRequest cfg pending owned now policies = (some i, next)) :
    ∃ r, pending[i]? = some r ∧ r.busy owned = false := by
  suffices ∃ c ∈ legal cfg pending owned now, c.index = i by
    obtain ⟨c, mem, rfl⟩ := this
    exact of_mem_legal mem
  unfold selectRequest at eq
  split at eq
  · cases eq
  · rename_i oldest rest candidates
    rw [candidates]
    split at eq
    · cases eq
      exact ⟨oldest, List.mem_cons_self, rfl⟩
    · cases eq
      exact ⟨oldest, List.mem_cons_self, rfl⟩
    · obtain ⟨chosen, -⟩ := Prod.mk.inj eq
      obtain ⟨-, same⟩ := Option.ite_none_right_eq_some.mp chosen
      exact ⟨oldest, List.mem_cons_self, Option.some.inj same⟩
    · obtain ⟨chosen, -⟩ := Prod.mk.inj eq
      obtain ⟨c, selected, index⟩ := Option.map_eq_some_iff.mp chosen
      refine ⟨c, ?_, index⟩
      split at selected
      · cases selected
        exact List.mem_cons_self
      · cases selected
        exact highest_mem
      · exact longestAged_mem selected
      · exact largestBatch_mem selected
      · cases selected

end Eligible

end OctetDB.Scheduled
