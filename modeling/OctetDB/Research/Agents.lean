import OctetDB.Lib.Locks
import OctetDB.Research.Engine

/-!
# Agents and their tokens

In every run an agent has the tokens of its command from the time it has taken them until it gives
them back, and the authority is to respond to exactly the agents that wait for it and have no
response yet. Since tokens are taken in order, agents do not wait for each other in a circle.
-/

namespace OctetDB.Research

open Function (update update_of_ne update_self)

open Accounts

theorem mem_tokensFor {c : Command} {x : AccountID} : x ∈ tokensFor c ↔
    x = c.account ∨ (c.kind = .transfer ∨ c.kind = .confirm) ∧ x = c.other := by
  unfold tokensFor
  rw [List.mem_insertionSort]
  split <;> simp [*]

/-- The tokens of a valid command are different ones, in order. -/
theorem tokensFor_increasing {c : Command} (valid : c.Valid) : (tokensFor c).Pairwise (· < ·) := by
  have sorted := List.pairwise_insertionSort (· ≤ ·)
    (if c.kind = .transfer ∨ c.kind = .confirm then [c.account, c.other] else [c.account])
  have distinct : (tokensFor c).Nodup := by
    refine (List.perm_insertionSort _ _).nodup_iff.mpr ?_
    split
    · rename_i kind
      have other := (valid.other_ne kind).2
      simp [Ne.symm other]
    · simp
  exact (sorted.and distinct).imp fun ⟨le, ne⟩ => UInt64.lt_of_le_of_ne le ne

namespace Agent

def held : Agent → List AccountID
  | idle => []
  | acquiring _ held _ => held
  | sending m => tokensFor m.command
  | waiting c => tokensFor c
  | releasing _ _ held => held

def command : Agent → Option Command
  | idle => none
  | acquiring c _ _ => some c
  | sending m => some m.command
  | waiting c => some c
  | releasing c _ _ => some c

/-- What an agent has of the tokens of its command. -/
def Fitting : Agent → Prop
  | acquiring c held wanted => held ++ wanted = tokensFor c
  | releasing c _ held => held <+: tokensFor c
  | _ => True

end Agent

def Message.commit? : Message → Option Commit
  | commit m => some m
  | control _ => none

/-- The decisions that the authority has taken from its channel and not responded to. -/
def Authority.commits : Authority → List Commit
  | receiving => []
  | collecting group _ => group
  | sorting rest unique repeats _ => rest ++ unique ++ repeats.map Prod.fst
  | applying _ unique repeats _ => unique ++ repeats.map Prod.fst
  | responding replies _ => replies.map Prod.fst
  | controlling _ => []
  | stopped => []

/-- A command that comes again in a group comes behind the first one of its ID, and what is to be
applied is the rest of the group. -/
def Authority.Fitting : Authority → Prop
  | sorting _ unique repeats _ => unique = [] → repeats = []
  | applying rest unique _ _ => rest <:+ unique
  | _ => True

variable {a : AccountID} {new : Agent}

namespace Engine

variable {σ : Type}

/-- The commands that the authority is to respond to. -/
def outstanding (e : Engine σ) : List Command :=
  (e.channel.filterMap Message.commit? ++ e.authority.commits).map Commit.command

/-- The agent waits for the token. -/
def Wants (e : Engine σ) (a x : AccountID) : Prop :=
  ∃ c held wanted, e.agent a = .acquiring c held (x :: wanted)

/-- The commands on their way to agents. -/
structure Mailed (e : Engine σ) : Prop where
  entering : ∀ c ∈ e.entering, c.Valid ∧ c ∈ e.submitted
  mailbox : ∀ a, ∀ c ∈ e.mailbox a, c.Valid ∧ c.account = a ∧ c ∈ e.submitted

/-- An agent has a command of its account, and its tokens. The authority is to respond to the
agents that wait for it and have no response yet. -/
structure Sound (e : Engine σ) : Prop where
  mailed : e.Mailed
  command : ∀ a, ∀ c ∈ (e.agent a).command, c.Valid ∧ c.account = a ∧ c ∈ e.submitted
  fitting : ∀ a, (e.agent a).Fitting
  locks : ∀ x a, e.locks x = some a ↔ x ∈ (e.agent a).held
  outstanding : ∀ c ∈ e.outstanding, e.agent c.account = .waiting c ∧ e.response c.account = none
  distinct : (e.outstanding.map (·.account)).Nodup
  response : ∀ a o, e.response a = some o → ∃ c, e.agent a = .waiting c
  waiting : ∀ a c, e.agent a = .waiting c → e.response a = none → c ∈ e.outstanding

namespace Sound

variable {e t : Engine σ}

section Quiet

variable (sound : e.Sound) (mailed : t.Mailed) (submitted : t.submitted = e.submitted)
  (agent : t.agent = e.agent) (locks : t.locks = e.locks) (response : t.response = e.response)

include sound mailed submitted agent locks response

/-- A step that leaves the agents alone, and responds to none. -/
theorem quiet (outstanding : t.outstanding.Perm e.outstanding) : t.Sound where
  mailed := mailed
  command := by
    rw [agent, submitted]
    exact sound.command
  fitting := agent ▸ sound.fitting
  locks := by
    rw [agent, locks]
    exact sound.locks
  outstanding c mem := by
    rw [agent, response]
    exact sound.outstanding c (outstanding.subset mem)
  distinct := (outstanding.map _).nodup_iff.mpr sound.distinct
  response := by
    rw [agent, response]
    exact sound.response
  waiting a c := by
    rw [agent, response]
    exact fun waits none => outstanding.symm.subset (sound.waiting a c waits none)

/-- A step of the authority within a group. -/
theorem turn (channel : t.channel = e.channel)
    (commits : (t.authority.commits.map Commit.command).Perm
      (e.authority.commits.map Commit.command)) : t.Sound := by
  refine sound.quiet mailed submitted agent locks response ?_
  rw [Engine.outstanding, Engine.outstanding, channel, List.map_append, List.map_append]
  exact commits.append_left _

/-- The authority takes a message from its channel. -/
theorem takes {message : Message} {rest : List Message} (queued : e.channel = message :: rest)
    (channel : t.channel = rest) (commits : (t.authority.commits.map Commit.command).Perm
      (message.commit?.toList.map Commit.command ++ e.authority.commits.map Commit.command)) :
    t.Sound := by
  refine sound.quiet mailed submitted agent locks response ?_
  have first : (message :: rest).filterMap Message.commit? =
      message.commit?.toList ++ rest.filterMap Message.commit? := by
    cases message <;> rfl
  rw [Engine.outstanding, Engine.outstanding, channel, queued, first, List.map_append,
    List.map_append, List.map_append, List.append_assoc]
  exact (commits.append_left _).trans (List.perm_append_comm_assoc _ _ _)

/-- A message that is not a decision is put on the channel. -/
theorem posts {k : Control} (channel : t.channel = e.channel ++ [.control k])
    (authority : t.authority = e.authority) : t.Sound := by
  refine sound.quiet mailed submitted agent locks response ?_
  rw [Engine.outstanding, Engine.outstanding, channel, authority, List.filterMap_append,
    List.filterMap_cons_none rfl, List.filterMap_nil, List.append_nil]

end Quiet

/-- An agent has no response before it has sent its decision. -/
theorem silent {m : Commit} (sound : e.Sound) (sending : e.agent a = .sending m) :
    e.response a = none := by
  by_contra given
  obtain ⟨o, given⟩ := Option.ne_none_iff_exists'.mp given
  obtain ⟨c, waits⟩ := sound.response a o given
  rw [sending] at waits
  cases waits

/-- The tokens stay with an agent that goes on. -/
theorem locks_goTo (sound : e.Sound) (held : new.held = (e.agent a).held) (x b : AccountID) :
    e.locks x = some b ↔ x ∈ (update e.agent a new b).held := by
  rw [sound.locks]
  by_cases here : b = a
  · rw [here, update_self, held]
  · rw [update_of_ne here]

/-- The commands and tokens of the agents when one of them goes on. -/
theorem goTo (sound : e.Sound)
    (command : ∀ c ∈ new.command, c.Valid ∧ c.account = a ∧ c ∈ e.submitted)
    (fitting : new.Fitting) :
    (∀ b, ∀ c ∈ (update e.agent a new b).command,
      c.Valid ∧ c.account = b ∧ c ∈ e.submitted) ∧
      ∀ b, (update e.agent a new b).Fitting := by
  constructor
  · rw [Function.forall_update_iff e.agent fun b agent => ∀ c ∈ agent.command,
      c.Valid ∧ c.account = b ∧ c ∈ e.submitted]
    exact ⟨command, fun b _ => sound.command b⟩
  · rw [Function.forall_update_iff e.agent fun b agent => agent.Fitting]
    exact ⟨fitting, fun b _ => sound.fitting b⟩

/-- An agent that does not wait for the authority goes on, and does not begin to wait for it. -/
theorem goOn (sound : e.Sound) (before : ∀ c, e.agent a ≠ .waiting c)
    (after : ∀ c, new ≠ .waiting c) (agent : t.agent = update e.agent a new)
    (mailed : t.Mailed) (submitted : t.submitted = e.submitted)
    (command : ∀ c ∈ new.command, c.Valid ∧ c.account = a ∧ c ∈ e.submitted) (fitting : new.Fitting)
    (locks : ∀ x b, t.locks x = some b ↔ x ∈ (update e.agent a new b).held)
    (response : t.response = e.response) (outstanding : t.outstanding = e.outstanding) :
    t.Sound where
  mailed := mailed
  command := by
    rw [agent, submitted]
    exact (sound.goTo command fitting).1
  fitting := by
    rw [agent]
    exact (sound.goTo command fitting).2
  locks := by
    rw [agent]
    exact locks
  outstanding c mem := by
    rw [outstanding] at mem
    obtain ⟨waits, none⟩ := sound.outstanding c mem
    have elsewhere : c.account ≠ a := fun here => before c (here ▸ waits)
    rw [agent, response, update_of_ne elsewhere]
    exact ⟨waits, none⟩
  distinct := outstanding ▸ sound.distinct
  response b o given := by
    rw [response] at given
    obtain ⟨c, waits⟩ := sound.response b o given
    have elsewhere : b ≠ a := fun here => before c (here ▸ waits)
    exact ⟨c, by rw [agent, update_of_ne elsewhere, waits]⟩
  waiting b c waits none := by
    have elsewhere : b ≠ a := by
      rintro rfl
      rw [agent, update_self] at waits
      exact after c waits
    rw [agent, update_of_ne elsewhere] at waits
    rw [outstanding]
    exact sound.waiting b c waits (response ▸ none)

theorem send (sound : e.Sound) {a : AccountID} {m : Commit} (sending : e.agent a = .sending m)
    (agent : t.agent = update e.agent a (.waiting m.command)) (mailed : t.Mailed)
    (submitted : t.submitted = e.submitted) (locks : t.locks = e.locks)
    (response : t.response = e.response)
    (outstanding : t.outstanding.Perm (m.command :: e.outstanding)) : t.Sound := by
  have command := sound.command a
  rw [sending] at command
  have here : m.command.account = a := (command m.command rfl).2.1
  have elsewhere (c : Command) (mem : c ∈ e.outstanding) : c.account ≠ a := by
    intro same
    have waits := (sound.outstanding c mem).1
    rw [same, sending] at waits
    cases waits
  have silent := sound.silent sending
  have next : (∀ b, ∀ c ∈ (update e.agent a (.waiting m.command) b).command,
      c.Valid ∧ c.account = b ∧ c ∈ e.submitted) ∧
        ∀ b, (update e.agent a (.waiting m.command) b).Fitting :=
    sound.goTo command trivial
  refine
    { mailed := mailed
      command := by rw [agent, submitted]; exact next.1
      fitting := by rw [agent]; exact next.2
      locks := by
        rw [agent, locks]
        exact sound.locks_goTo (by rw [sending]; rfl)
      outstanding := fun c mem => ?_
      distinct := ?_
      response := fun b o given => ?_
      waiting := fun b c waits none => ?_ }
  · rw [agent, response]
    rcases List.mem_cons.mp (outstanding.subset mem) with rfl | mem
    · rw [here, update_self]
      exact ⟨rfl, silent⟩
    · rw [update_of_ne (elsewhere c mem)]
      exact sound.outstanding c mem
  · refine (outstanding.map _).nodup_iff.mpr (List.nodup_cons.mpr ⟨?_, sound.distinct⟩)
    intro mem
    obtain ⟨c, listed, same⟩ := List.mem_map.mp mem
    exact elsewhere c listed (same.trans here)
  · rw [response] at given
    obtain ⟨c, waits⟩ := sound.response b o given
    have other : b ≠ a := by
      rintro rfl
      rw [silent] at given
      cases given
    exact ⟨c, by rw [agent, update_of_ne other, waits]⟩
  · rw [agent] at waits
    rw [response] at none
    refine outstanding.symm.subset ?_
    by_cases same : b = a
    · rw [same, update_self] at waits
      cases waits
      exact List.mem_cons_self ..
    · rw [update_of_ne same] at waits
      exact List.mem_cons_of_mem _ (sound.waiting b c waits none)

theorem resume (sound : e.Sound) {a : AccountID} {c : Command} {o : Outcome}
    (waits : e.agent a = .waiting c) (given : e.response a = some o) :
    Sound ({ e with response := update e.response a none }.goTo a
      (.releasing c o (tokensFor c))) := by
  have command := sound.command a
  rw [waits] at command
  have elsewhere (d : Command) (mem : d ∈ e.outstanding) : d.account ≠ a := by
    intro same
    have none := (sound.outstanding d mem).2
    rw [same, given] at none
    cases none
  have next : (∀ b, ∀ d ∈ (update e.agent a (.releasing c o (tokensFor c)) b).command,
      d.Valid ∧ d.account = b ∧ d ∈ e.submitted) ∧
        ∀ b, (update e.agent a (.releasing c o (tokensFor c)) b).Fitting :=
    sound.goTo command (List.prefix_refl _)
  exact
    { mailed := ⟨sound.mailed.entering, sound.mailed.mailbox⟩
      command := next.1
      fitting := next.2
      locks := sound.locks_goTo (by rw [waits]; rfl)
      outstanding := fun d mem => by
        have other := elsewhere d mem
        simp only [Engine.goTo, update_of_ne other]
        exact sound.outstanding d mem
      distinct := sound.distinct
      response := fun b p given => by
        have other : b ≠ a := by
          rintro rfl
          simp [Engine.goTo] at given
        simp only [Engine.goTo, update_of_ne other] at given ⊢
        exact sound.response b p given
      waiting := fun b d waits none => by
        have other : b ≠ a := by
          rintro rfl
          simp [Engine.goTo] at waits
        simp only [Engine.goTo, update_of_ne other] at waits none
        exact sound.waiting b d waits none }

theorem respond (sound : e.Sound) {m : Commit} {o : Outcome}
    (agent : t.agent = e.agent) (mailed : t.Mailed) (submitted : t.submitted = e.submitted)
    (locks : t.locks = e.locks)
    (response : t.response = update e.response m.account (some o))
    (outstanding : e.outstanding.Perm (m.command :: t.outstanding)) : t.Sound := by
  have distinct := (outstanding.map Command.account).nodup_iff.mp sound.distinct
  obtain ⟨new, distinct⟩ := List.nodup_cons.mp distinct
  have waits : e.agent m.account = .waiting m.command :=
    (sound.outstanding m.command (outstanding.symm.subset (List.mem_cons_self ..))).1
  have elsewhere (c : Command) (mem : c ∈ t.outstanding) : c.account ≠ m.account := fun same =>
    new (List.mem_map.mpr ⟨c, mem, same⟩)
  refine
    { mailed := mailed
      command := by rw [agent, submitted]; exact sound.command
      fitting := agent ▸ sound.fitting
      locks := by rw [agent, locks]; exact sound.locks
      outstanding := fun c mem => ?_
      distinct := distinct
      response := fun b p given => ?_
      waiting := fun b c waits' none => ?_ }
  · rw [agent, response, update_of_ne (elsewhere c mem)]
    exact sound.outstanding c (outstanding.symm.subset (List.mem_cons_of_mem _ mem))
  · rw [agent]
    by_cases here : b = m.account
    · exact ⟨_, here ▸ waits⟩
    · rw [response, update_of_ne here] at given
      exact sound.response b p given
  · rw [agent] at waits'
    have other : b ≠ m.account := by
      rintro rfl
      simp [response] at none
    rw [response, update_of_ne other] at none
    rcases List.mem_cons.mp (outstanding.subset (sound.waiting b c waits' none)) with rfl | mem
    · exact absurd (sound.command b m.command (by rw [waits']; rfl)).2.1.symm other
    · exact mem

theorem start (log : σ) : Sound ({ log := log } : Engine σ) where
  mailed := ⟨by simp, by simp⟩
  command := by simp [Agent.command]
  fitting := fun _ => trivial
  locks := by simp [Agent.held]
  outstanding := by simp [Engine.outstanding, Authority.commits]
  distinct := List.nodup_nil
  response := by simp
  waiting := by simp

/-- Every step keeps the commands and tokens in their places. -/
theorem step {cfg : EngineConfig} {log : GroupLog σ} {event : Event} (sound : e.Sound)
    (fitting : e.authority.Fitting) (next : Step cfg log e event t) : t.Sound := by
  have mailed : e.Mailed := sound.mailed
  have kept : ∀ {t : Engine σ}, t.entering = e.entering → t.mailbox = e.mailbox →
      t.submitted = e.submitted → t.Mailed := by
    intro t entering mailbox submitted
    refine ⟨?_, ?_⟩
    · rw [entering, submitted]
      exact mailed.entering
    · rw [mailbox, submitted]
      exact mailed.mailbox
  cases next with
  | invalid | shut | close | closed =>
    exact sound.quiet (kept rfl rfl rfl) rfl rfl rfl rfl (.refl _)
  | enter c valid opened =>
    have known {d : Command} (mem : d ∈ e.submitted) : d ∈ e.submitted ++ [c] :=
      List.mem_append_left _ mem
    exact
      { mailed := by
          refine ⟨fun d mem => ?_, fun a d mem => ?_⟩
          · rcases List.mem_append.mp mem with mem | mem
            · exact (mailed.entering d mem).imp_right known
            · obtain rfl := List.mem_singleton.mp mem
              exact ⟨valid, by simp⟩
          · obtain ⟨valid, here, listed⟩ := mailed.mailbox a d mem
            exact ⟨valid, here, known listed⟩
        command := fun a d mem => by
          obtain ⟨valid, here, listed⟩ := sound.command a d mem
          exact ⟨valid, here, known listed⟩
        fitting := sound.fitting
        locks := sound.locks
        outstanding := sound.outstanding
        distinct := sound.distinct
        response := sound.response
        waiting := sound.waiting }
  | @enqueue c before behind entering room =>
    obtain ⟨valid, listed⟩ := mailed.entering c (by simp [entering])
    refine sound.quiet ⟨fun d mem => mailed.entering d ?_, ?_⟩ rfl rfl rfl rfl (.refl _)
    · rw [entering]
      simpa using (List.mem_append.mp mem).imp_right .inr
    · simp only
      rw [Function.forall_update_iff e.mailbox fun a mailbox => ∀ d ∈ mailbox,
        d.Valid ∧ d.account = a ∧ d ∈ e.submitted]
      refine ⟨fun d mem => ?_, fun a _ => mailed.mailbox a⟩
      rcases List.mem_append.mp mem with mem | mem
      · exact mailed.mailbox _ d mem
      · obtain rfl := List.mem_singleton.mp mem
        exact ⟨valid, rfl, listed⟩
  | @full c before behind entering none =>
    refine sound.quiet ⟨fun d mem => mailed.entering d ?_, mailed.mailbox⟩ rfl rfl rfl rfl (.refl _)
    rw [entering]
    simpa using (List.mem_append.mp mem).imp_right .inr
  | @take a c rest idle queued =>
    have first := mailed.mailbox a c (by simp [queued])
    refine sound.goOn (by simp [idle]) (by simp) rfl ⟨mailed.entering, ?_⟩ rfl
      (fun d mem => ?_) rfl (sound.locks_goTo (by simp [idle, Agent.held])) rfl rfl
    · simp only [Engine.goTo]
      rw [Function.forall_update_iff e.mailbox fun b mailbox => ∀ d ∈ mailbox,
        d.Valid ∧ d.account = b ∧ d ∈ e.submitted]
      exact ⟨fun d mem => mailed.mailbox a d (by simp [queued, mem]), fun b _ => mailed.mailbox b⟩
    · obtain rfl := Option.some.inj mem
      exact first
  | @lock a x c held wanted acquiring free =>
    have command := sound.command a
    have fits := sound.fitting a
    rw [acquiring] at command fits
    refine sound.goOn (by simp [acquiring]) (by simp) rfl (kept rfl rfl rfl) rfl command
      (by simpa [Agent.Fitting] using fits) (fun y b => ?_) rfl rfl
    change update e.locks x (some a) y = some b ↔ _
    by_cases here : y = x
    · subst here
      rw [update_self, Option.some_inj]
      by_cases same : b = a
      · simp [same, Agent.held]
      · rw [update_of_ne same, ← sound.locks, free]
        simp [Ne.symm same]
    · rw [update_of_ne here, sound.locks]
      by_cases same : b = a
      · simp [same, acquiring, Agent.held, here]
      · rw [update_of_ne same]
  | @decide a c held acquired =>
    have command := sound.command a
    have fits := sound.fitting a
    rw [acquired] at command fits
    refine sound.goOn (by simp [acquired]) (by simp) rfl (kept rfl rfl rfl) rfl command trivial
      (sound.locks_goTo ?_) rfl rfl
    rw [acquired]
    exact (List.append_nil held ▸ fits : held = tokensFor c).symm
  | @send a m sending room =>
    refine sound.send sending rfl (kept rfl rfl rfl) rfl rfl rfl ?_
    simp only [Engine.goTo, Engine.outstanding, List.filterMap_append, List.map_append,
      List.append_assoc]
    exact List.perm_middle
  | resume waits given => exact sound.resume waits given
  | @unlock a x c outcome held releasing =>
    have command := sound.command a
    have fits := sound.fitting a
    rw [releasing] at command fits
    have distinct : (held ++ [x]).Nodup :=
      (tokensFor_increasing (command c rfl).1).imp (fun less => UInt64.ne_of_lt less)
        |>.sublist fits.sublist
    have gone : x ∉ held := fun mem =>
      (List.nodup_append.mp distinct).2.2 x mem x (List.mem_singleton_self x) rfl
    refine sound.goOn (by simp [releasing]) (by simp) rfl (kept rfl rfl rfl) rfl command
      ((List.prefix_append held [x]).trans fits) (fun y b => ?_) rfl rfl
    change update e.locks x none y = some b ↔ _
    have mine : e.locks x = some a := (sound.locks x a).mpr (by simp [releasing, Agent.held])
    by_cases here : y = x
    · subst here
      rw [update_self]
      by_cases same : b = a
      · simp [same, Agent.held, gone]
      · rw [update_of_ne same, ← sound.locks, mine]
        simp [Ne.symm same]
    · rw [update_of_ne here, sound.locks]
      by_cases same : b = a
      · simp [same, releasing, Agent.held, here]
      · rw [update_of_ne same]
  | @answer a c outcome released =>
    exact sound.goOn (by simp [released]) (by simp) rfl (kept rfl rfl rfl) rfl
      (by simp [Agent.command]) trivial (sound.locks_goTo (by simp [released, Agent.held])) rfl rfl
  | receive here queued | defer here small queued =>
    refine sound.takes (kept rfl rfl rfl) rfl rfl rfl rfl queued rfl ?_
    simp [here, Authority.commits, Message.commit?]
  | @control k rest idle queued =>
    refine sound.takes (kept rfl rfl rfl) rfl rfl rfl rfl queued rfl ?_
    rw [idle]
    simp only
    split <;> simp [Authority.commits, Message.commit?]
  | collect collecting small queued =>
    refine sound.takes (kept rfl rfl rfl) rfl rfl rfl rfl queued rfl ?_
    rw [collecting]
    simp only [Authority.commits, List.map_append]
    exact List.perm_append_comm
  | cut here | cutPoisoned here | append here | fail here | apply here | applied here
  | responded here | handle here | handled here =>
    refine sound.turn (kept rfl rfl rfl) rfl rfl rfl rfl rfl ?_
    simp [here, Authority.commits, failures, replies, Function.comp_def]
  | known here | respond here =>
    refine sound.respond rfl (kept rfl rfl rfl) rfl rfl rfl ?_
    simp only [Engine.outstanding, here, Authority.commits, List.cons_append, List.map_append,
      List.map_cons]
    exact List.perm_middle
  | again sorting unknown seen =>
    refine sound.turn (kept rfl rfl rfl) rfl rfl rfl rfl rfl (.map _ ?_)
    rw [sorting]
    simp only [Authority.commits, List.map_append, ← List.append_assoc, List.cons_append]
    exact List.perm_append_singleton _ _
  | @number m rest unique repeats deferred sorting unknown new =>
    refine sound.turn (kept rfl rfl rfl) rfl rfl rfl rfl rfl ?_
    rw [sorting]
    simp only [Authority.commits, List.map_append, List.map_cons, List.cons_append]
    rw [← List.append_assoc]
    exact .append_right _ (List.perm_append_singleton m.command _)
  | nothing sorted =>
    refine sound.turn (kept rfl rfl rfl) rfl rfl rfl rfl rfl ?_
    rw [sorted] at fitting ⊢
    simp [Authority.commits, fitting rfl]
  | post | snapshot => exact sound.posts (kept rfl rfl rfl) rfl rfl rfl rfl rfl rfl

/-! ### Tokens are taken in order -/

/-- How many tokens there can be above a token. -/
def above (x : AccountID) : Nat := 2 ^ 64 - x.toNat

theorem above_lt {x y : AccountID} (less : x < y) : above y < above x := by
  have bound := y.toNat_lt
  have less := UInt64.lt_iff_toNat_lt.mp less
  unfold above
  omega

/-- An agent waits for a token above those that it has. -/
theorem ordered (sound : e.Sound) (a x y : AccountID) (held : e.locks x = some a)
    (wants : e.Wants a y) : above y < above x := by
  obtain ⟨c, tokens, wanted, acquiring⟩ := wants
  have mine := (sound.locks x a).mp held
  have command := sound.command a
  have fits := sound.fitting a
  rw [acquiring] at mine command fits
  have increasing := tokensFor_increasing (command c rfl).1
  rw [← (fits : tokens ++ y :: wanted = tokensFor c)] at increasing
  exact above_lt ((List.pairwise_append.mp increasing).2.2 x mine y (List.mem_cons_self ..))

theorem wants_unique (a x y : AccountID) (first : e.Wants a x) (second : e.Wants a y) : x = y := by
  obtain ⟨c, held, wanted, eq⟩ := first
  obtain ⟨c', held', wanted', eq'⟩ := second
  rw [eq] at eq'
  injection eq' with _ _ lists
  exact (List.cons.inj lists).1

/-- No agents wait for each other's tokens in a circle. -/
theorem no_circle (sound : e.Sound) (a : AccountID) :
    ¬ Relation.TransGen (WaitsFor (fun a x => e.locks x = some a) e.Wants) a a :=
  not_waits_self sound.ordered wants_unique a

end Sound

section Runs

variable {cfg : EngineConfig} {log : GroupLog σ} {e t : Engine σ} {event : Event}

theorem Step.fitting (next : Step cfg log e event t) (fitting : e.authority.Fitting) :
    t.authority.Fitting := by
  cases next with
  | cut => exact fun _ => rfl
  | known sorting seen =>
    rw [sorting] at fitting
    exact fitting
  | again sorting unknown seen =>
    rintro rfl
    cases seen
  | number sorting unknown new => exact fun empty => by simp at empty
  | append => exact List.suffix_refl _
  | apply applying =>
    rw [applying] at fitting
    exact (List.suffix_cons _ _).trans fitting
  | control =>
    simp only
    split <;> trivial
  | _ => first | exact fitting | trivial

theorem Reach.sound {allowed : Engine σ → Event → Prop} {start : σ}
    (reach : Reach cfg log allowed start e) : e.Sound ∧ e.authority.Fitting := by
  induction reach with
  | start => exact ⟨.start _, trivial⟩
  | step before next allows ih => exact ⟨ih.1.step ih.2 next, next.fitting ih.2⟩

end Runs

end Engine

end OctetDB.Research
