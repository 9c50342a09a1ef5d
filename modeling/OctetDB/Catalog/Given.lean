import OctetDB.Catalog.Host
import OctetDB.Catalog.Topology
import OctetDB.Keyed.Bounds

/-!
# Handles come from calls

A caller has the bucket and dataset handles that calls on the database gave out, and no others.
Buckets and datasets are never dropped from the topology, so a handle that was given out refers to
an entry of it from then on.
-/

namespace OctetDB

/-! ## Growing topologies -/

/-- Everything in the one topology is in the other as well. -/
structure CatalogState.Within (c c' : CatalogState) : Prop where
  buckets : ∀ bucket ∈ c.buckets, bucket ∈ c'.buckets
  datasets : ∀ bucket name info, c.dataset? bucket name = some info →
    c'.dataset? bucket name = some info

theorem CatalogState.Within.refl (c : CatalogState) : c.Within c :=
  ⟨fun _ mem => mem, fun _ _ _ get => get⟩

theorem CatalogState.dataset?_eq_getD (c : CatalogState) (bucket name : Bytes) :
    c.dataset? bucket name = (c.buckets.getD bucket ∅)[name]? := by
  rw [CatalogState.dataset?, Std.ExtTreeMap.getD_eq_getD_getElem?]
  cases c.buckets[bucket]? <;> simp

namespace Database.Structural

variable {db : Database} {next : CatalogState}

theorem dataset?_bucket {name : Bytes} (new : db.Structural (.bucket name) next) (b n : Bytes) :
    next.dataset? b n = db.catalog.dataset? b n := by
  cases new with
  | bucket absent =>
    simp only [CatalogState.dataset?_eq_getD, Std.ExtTreeMap.getD_insert]
    split
    · rename_i same
      obtain rfl := Std.LawfulEqCmp.eq_of_compare same
      rw [Std.ExtTreeMap.getD_eq_fallback absent]
    · rfl

def entry (db : Database) (bucket name : Bytes) (normalized : DatasetOptions) : DatasetInfo where
  id := db.catalog.nextDatasetID
  bucketName := bucket
  name := name
  kind := normalized.kind
  origin := goCatalog
  typeIdentity := normalized.typeIdentity
  bounds := ⟨normalized.maxRecords, normalized.maxValueBytes⟩

theorem dataset?_dataset {bucket : Bucket} {name : Bytes} {options : DatasetOptions}
    (new : db.Structural (.dataset bucket name options) next) :
    ∃ normalized, normalizeDatasetOptions options db.keyed.options = .ok normalized ∧
      db.catalog.dataset? bucket.name name = none ∧
      next.nextDatasetID = db.catalog.nextDatasetID + 1 ∧
      ∀ b n, next.dataset? b n = if bucket.name = b ∧ name = n then
        some (entry db bucket.name name normalized) else db.catalog.dataset? b n := by
  cases new with
  | @dataset _ _ _ normalized normal absent =>
    refine ⟨normalized, normal, by rwa [CatalogState.dataset?_eq_getD], rfl, fun b n => ?_⟩
    simp only [CatalogState.dataset?_eq_getD, Std.ExtTreeMap.getD_insert]
    by_cases bucketSame : bucket.name = b <;> by_cases nameSame : name = n <;>
      simp [bucketSame, nameSame, Std.ExtTreeMap.getElem?_insert, entry]

theorem within {call : Call} (new : db.Structural call next) : db.catalog.Within next := by
  cases call with
  | bucket name =>
    refine ⟨fun bucket mem => ?_, fun b n info get => by rwa [new.dataset?_bucket]⟩
    cases new with
    | bucket absent => simp [mem]
  | dataset bucket name options =>
    refine ⟨fun b mem => ?_, fun b n info get => ?_⟩
    · cases new with
      | dataset normal absent => simp [mem]
    · obtain ⟨normalized, -, absent, -, lookup⟩ := new.dataset?_dataset
      rw [lookup, if_neg, get]
      rintro ⟨rfl, rfl⟩
      simp [absent] at get
  | _ => cases new

end Database.Structural

theorem Host.Change.within {host : Host} {taken : Nat} {db : Database} {d : Directory}
    (change : host.Change taken db d) : host.db.catalog.Within db.catalog := by
  cases change with
  | call pending live effect =>
    cases effect with
    | install new done => exact new.within
    | _ => exact .refl _
  | _ => exact .refl _

/-! ## What a reply says of the topology -/

/-- The handles of a reply refer to the topology. -/
def Reply.Known (c : CatalogState) : Reply → Prop
  | .bucket handle => handle.name ∈ c.buckets
  | .dataset handle => ∃ bucket name, c.dataset? bucket name = some handle.info
  | _ => True

def Answer.Known (c : CatalogState) : Answer → Prop
  | .reply (.ok r) => r.Known c
  | _ => True

theorem Answer.Known.within {c c' : CatalogState} {answer : Answer} (h : answer.Known c)
    (within : c.Within c') : answer.Known c' := by
  match answer, h with
  | .reply (.ok (.bucket handle)), h => exact within.buckets _ h
  | .reply (.ok (.dataset handle)), ⟨bucket, name, get⟩ =>
    exact ⟨bucket, name, within.datasets _ _ _ get⟩
  | .reply (.ok (.found _)), _ | .reply (.ok .done), _ | .reply (.ok (.buckets _)), _
  | .reply (.ok (.catalog _ _ _)), _ | .reply (.ok (.datasets _)), _
  | .reply (.ok (.scanned _)), _ | .reply (.error _), _ | .result _, _ | .closed _, _ => trivial

theorem Database.restructure_known {db : Database} {d : Directory} {next : CatalogState}
    {reply : Reply} (known : reply.Known next) (fault : Option (Nat × String)) :
    (Answer.reply (db.restructure d next reply fault).reply).Known
      (db.restructure d next reply fault).db.catalog := by
  simp only [Database.restructure]
  split
  · trivial
  · exact known

/-- A call gives out handles of what it found or created. -/
theorem Database.perform_known (db : Database) (d : Directory) (env : Environment) (call : Call) :
    (Answer.reply (db.perform d env call).reply).Known (db.perform d env call).db.catalog := by
  have found (value : Option Bytes) (destination : Destination) (op : String) :
      (Answer.reply (decodeRecord value destination op)).Known db.catalog := by
    unfold decodeRecord
    repeat' split
    all_goals trivial
  cases call with
  | getKeyed key destination =>
    simp only [perform]
    split
    · split
      · trivial
      split
      · trivial
      · exact found _ _ _
    · trivial
  | snapshot =>
    simp only [perform]
    split <;> trivial
  | bucket name =>
    simp only [perform, openBucket]
    split
    · assumption
    · exact restructure_known (by simp [Reply.Known]) _
  | dataset bucket name options =>
    simp only [perform, openDataset]
    split
    · trivial
    rename_i normalized normal
    split
    · rename_i existing get
      split
      · trivial
      · exact ⟨bucket.name, name, by rwa [CatalogState.dataset?_eq_getD]⟩
    · rename_i absent
      obtain ⟨_, same, -, -, lookup⟩ := (Structural.dataset normal absent).dataset?_dataset
      obtain rfl := Except.ok.inj (normal.symm.trans same)
      refine restructure_known ?_ _
      exact ⟨bucket.name, name, by rw [lookup, if_pos ⟨rfl, rfl⟩]; rfl⟩
  | listDatasets bucket =>
    simp only [perform]
    split <;> trivial
  | get dataset key destination =>
    simp only [perform]
    split
    · trivial
    · exact found _ _ _
  | scan dataset visit =>
    simp only [perform]
    split
    · trivial
    · cases db.scan dataset _ env.cancelled <;> trivial
  | listBuckets | catalog => trivial

theorem Host.Step.known {host next : Host} {answers : List Answer} (step : host.Step answers next) :
    ∀ answer ∈ answers, answer.Known next.db.catalog := by
  cases step with
  | @perform before after call env pending =>
    simp only [List.mem_singleton, forall_eq]
    simp only [Host.perform]
    split
    · trivial
    · exact host.db.perform_known host.dir env call
  | group faults pos le =>
    intro answer mem
    obtain ⟨result, -, rfl⟩ := List.mem_map.mp mem
    trivial
  | refuse | abandon | refuseMutation | late | finish =>
    simp only [List.mem_singleton, forall_eq]
    trivial
  | _ => simp

/-! ## Runs with the handles that were given out -/

/-- The handles in a call were given out by earlier calls. -/
def Call.Given (answers : List Answer) : Call → Prop
  | .dataset handle _ _ | .listDatasets handle => .reply (.ok (.bucket handle)) ∈ answers
  | .get handle _ _ | .scan handle _ => .reply (.ok (.dataset handle)) ∈ answers
  | _ => True

/-- A call of `Mutate` whose callback uses handles of other databases, which are refused, and
handles that were given out by earlier calls. -/
def Submission.Given (handle : Nat) (answers : List Answer) (submission : Submission) : Prop :=
  match submission.mutation with
  | .keyed _ => False
  | .catalog none => True
  | .catalog (some program) => program.Uses fun dataset =>
      dataset.db = handle → .reply (.ok (.dataset dataset)) ∈ answers

/-- A call waits for admission with handles it was given, and a callback has its handles by the
time it is run. -/
structure Host.Given (host next : Host) (answers : List Answer) : Prop where
  waiting : ∀ call ∈ next.waiting, call.Given answers
  taken : ∀ submission ∈ host.queue.take (host.taken next), submission.Given host.db.handle answers

/-- Any number of steps with handles that were given out, every step being allowed. -/
inductive Host.Use (allowed : Host → Host → Prop) (start : Host) : List Answer → Host → Prop where
  | refl : Use allowed start [] start
  | step {host next : Host} {answers later : List Answer} (before : Use allowed start answers host)
      (step : host.Step later next) (given : host.Given next answers)
      (allow : allowed host next) : Use allowed start (answers ++ later) next

/-- All handles that were given out refer to the topology. -/
theorem Host.Use.known {allowed : Host → Host → Prop} {start last : Host} {answers : List Answer}
    (use : Host.Use allowed start answers last) :
    ∀ answer ∈ answers, answer.Known last.db.catalog := by
  induction use with
  | refl => simp
  | step before step given allow ih =>
    intro answer mem
    rcases List.mem_append.mp mem with mem | mem
    · exact (ih answer mem).within step.change.within
    · exact step.known answer mem

section Alone

variable {allowed : Host → Host → Prop} {start host : Host} {answers : List Answer} {ctx : Context}

theorem Host.Use.call (before : Host.Use allowed start answers host) {call : Call}
    (env : Environment) (idle : host.waiting = []) (good : host.request ctx call = .ok ())
    (given : call.Given answers) (asked : allowed host { host with waiting := [call] })
    (done : allowed { host with waiting := [call] } (host.perform call env).1) :
    Host.Use allowed start (answers ++ [.reply (host.perform call env).2])
      (host.perform call env).1 := by
  obtain ⟨db, dir, submitting, queue, waiting, finished, synced⟩ := host
  obtain rfl : waiting = [] := idle
  have wait := before.step (.wait good) ⟨by simpa using given, by simp [Host.taken]⟩ asked
  have perform :=
    @Host.Step.perform ⟨db, dir, submitting, queue, [call], finished, synced⟩ [] [] call
    env rfl
  simp only [Host.perform, List.append_nil, List.nil_append] at wait perform done ⊢
  split at perform
  · exact wait.step perform ⟨by simp, by simp [Host.taken]⟩ (by simpa [*] using done)
  · exact wait.step perform ⟨by simp, by simp [Host.taken]⟩ (by simpa [*] using done)

theorem Host.Use.mutate (before : Host.Use allowed start answers host) {submission : Submission}
    (faults : Faults) (idle : host.waiting = []) (unsubmitted : host.submitting = [])
    (empty : host.queue = []) (opened : host.db.keyed.closed = false)
    (good : host.db.submit ctx submission.mutation = .ok ())
    (given : submission.Given host.db.handle answers)
    (submitted : allowed host { host with submitting := [submission] })
    (queued : allowed { host with submitting := [submission] } { host with queue := [submission] })
    (decided : allowed { host with queue := [submission] }
      ({ host with queue := [submission] }.commit 1 faults)) :
    Host.Use allowed start
      (answers ++ ({ host with queue := [submission] }.group 1 faults).results.map .result)
      ({ host with queue := [submission] }.commit 1 faults) := by
  obtain ⟨db, dir, submitting, queue, waiting, finished, synced⟩ := host
  obtain rfl : waiting = [] := idle
  obtain rfl : submitting = [] := unsubmitted
  obtain rfl : queue = [] := empty
  have submit := before.step (.submit good) ⟨by simp, by simp [Host.taken]⟩ submitted
  have enqueue := submit.step (@Host.Step.enqueue ⟨db, dir, [submission], [], [], finished, synced⟩
    [] [] submission rfl opened) ⟨by simp, by simp [Host.taken]⟩ queued
  have group := enqueue.step (@Host.Step.group ⟨db, dir, [], [submission], [], finished, synced⟩ 1
    faults (by decide) (by simp [keyedMaxCommitGroup]))
    ⟨by simp [Host.commit], by simpa [Host.taken, Host.commit] using given⟩ decided
  simpa using group

end Alone

end OctetDB
