import OctetDB.Research.Serializable

/-!
# Closing the concurrent engine

`Close` posts a message to the authority. One that is read first stops the authority, whoever still
waits for it; one that is read while a group is collected is handled behind the group, and the
authority goes on. So both a command can be committed after `Close` has returned, and an agent can
wait forever.

If `Close` is called when no command is in the engine, neither happens: nothing is appended or
answered any more, and before that the engine's own steps come to an end with every command
answered. If it is called when the decisions of all commands have been sent, they come before the
close in the channel, and only answers come late.
-/

namespace OctetDB.Research

open Function (update update_of_ne update_self)

open Accounts

/-- The messages that wait for the end of the group. -/
def Authority.deferred : Authority → List Control
  | receiving => []
  | collecting _ deferred => deferred
  | sorting _ _ _ deferred => deferred
  | applying _ _ _ deferred => deferred
  | responding _ deferred => deferred
  | controlling deferred => deferred
  | stopped => []

/-- The agent has no decision to make or to send. -/
def Agent.Sent : Agent → Prop
  | idle | waiting _ | releasing .. => True
  | acquiring .. | sending _ => False

variable {σ : Type} {cfg : EngineConfig} {log : GroupLog σ} {e t : Engine σ} {event : Event}

namespace Engine

/-! ## Nothing happens after a calm close -/

/-- No command is in the engine. -/
structure Quiet (e : Engine σ) : Prop where
  entering : e.entering = []
  mailbox : ∀ a, e.mailbox a = []
  agent : ∀ a, e.agent a = .idle

/-- The condition on a run: `Close` is called when no command is in the engine. -/
def Calm (e : Engine σ) : Event → Prop
  | .close => e.Quiet
  | _ => True

/-- Every command in the engine has been sent to the authority. -/
structure Sent (e : Engine σ) : Prop where
  entering : e.entering = []
  mailbox : ∀ a, e.mailbox a = []
  agent : ∀ a, (e.agent a).Sent

/-- A weaker condition: `Close` is called behind the decisions of all commands. -/
def Behind (e : Engine σ) : Event → Prop
  | .close => e.Sent
  | _ => True

structure Opened (e : Engine σ) : Prop where
  closing : e.closing = .open
  channel : Message.control .close ∉ e.channel
  deferred : Control.close ∉ e.authority.deferred
  authority : e.authority ≠ .stopped

/-- No decision comes behind the close, and none is left when it has been handled. -/
structure Settled (e : Engine σ) : Prop extends e.Sent where
  channel : e.channel.Pairwise fun x y => x = .control .close → y.commit? = none
  deferred : Control.close ∈ e.authority.deferred → ∀ y ∈ e.channel, y.commit? = none
  handled : e.closing = .answered ∨ e.closing = .returned ∨ e.authority = .stopped →
    e.outstanding = []

/-- The authority has nothing to respond to when no command is in the engine. -/
theorem Quiet.outstanding (quiet : e.Quiet) (sound : e.Sound) : e.outstanding = [] := by
  refine List.eq_nil_iff_forall_not_mem.mpr fun c mem => ?_
  have waits := (sound.outstanding c mem).1
  rw [quiet.agent] at waits
  cases waits

theorem Quiet.commits (quiet : e.Quiet) (sound : e.Sound) : e.authority.commits = [] := by
  have none := quiet.outstanding sound
  rw [Engine.outstanding, List.map_eq_nil_iff, List.append_eq_nil_iff] at none
  exact none.2

/-- What a step of an engine without commands leaves alone. -/
theorem Step.quiet (next : Step cfg log e event t) (sound : e.Sound) (quiet : e.Quiet)
    (closed : e.closed = true) :
    t.Quiet ∧ t.closed = true ∧ t.appended = e.appended ∧ t.answered = e.answered := by
  have idle {a : AccountID} {agent : Agent} (here : e.agent a = agent) : agent = .idle :=
    here.symm.trans (quiet.agent a)
  cases next with
  | enter c valid opened =>
    rw [closed] at opened
    cases opened
  | enqueue entering | full entering =>
    rw [quiet.entering] at entering
    simp at entering
  | take _ queued =>
    rw [quiet.mailbox] at queued
    cases queued
  | lock here | decide here | send here | resume here | unlock here | answer here =>
    cases idle here
  | append sorted nonempty =>
    have none := quiet.commits sound
    rw [sorted] at none
    simp only [Authority.commits, List.nil_append, List.append_eq_nil_iff] at none
    exact absurd none.1 nonempty
  | close first =>
    rw [closed] at first
    cases first
  | _ => exact ⟨⟨quiet.entering, quiet.mailbox, quiet.agent⟩, closed, rfl, rfl⟩

theorem Step.opened (next : Step cfg log e event t) (opened : e.Opened)
    (still : t.closed = false) : t.Opened := by
  obtain ⟨closing, channel, deferred, authority⟩ := opened
  cases next with
  | send => exact ⟨closing, by simpa [goTo] using channel, deferred, authority⟩
  | receive idle queued =>
    rw [queued] at channel
    exact ⟨closing, fun mem => channel (List.mem_cons_of_mem _ mem), List.not_mem_nil, by simp⟩
  | @control k rest idle queued =>
    rw [queued] at channel
    have other : k ≠ .close := fun same => channel (same ▸ List.mem_cons_self ..)
    simp only [Engine.handle, if_neg other]
    exact ⟨closing, fun mem => channel (List.mem_cons_of_mem _ mem), List.not_mem_nil, by simp⟩
  | collect collecting small queued =>
    rw [queued] at channel
    rw [collecting] at deferred
    exact ⟨closing, fun mem => channel (List.mem_cons_of_mem _ mem), deferred, by simp⟩
  | @defer k rest group waiting collecting small queued =>
    rw [queued] at channel
    rw [collecting] at deferred
    have other : k ≠ .close := fun same => channel (same ▸ List.mem_cons_self ..)
    refine ⟨closing, fun mem => channel (List.mem_cons_of_mem _ mem), fun mem => ?_, by simp⟩
    rcases List.mem_append.mp mem with mem | mem
    · exact deferred mem
    · exact other (List.mem_singleton.mp mem).symm
  | cut here | cutPoisoned here | known here | again here | number here | nothing here | append here
  | fail here | apply here | applied here | respond here | responded here =>
    rw [here] at deferred
    exact ⟨closing, channel, deferred, by simp⟩
  | @handle k rest controlling =>
    rw [controlling] at deferred
    have other : k ≠ .close := fun same => deferred (same ▸ List.mem_cons_self ..)
    simp only [Engine.handle, if_neg other]
    exact ⟨closing, channel, fun mem => deferred (List.mem_cons_of_mem _ mem), by simp⟩
  | handled => exact ⟨closing, channel, List.not_mem_nil, by simp⟩
  | close => cases still
  | post posting =>
    rw [closing] at posting
    cases posting
  | closed answered =>
    rw [closing] at answered
    cases answered
  | snapshot => exact ⟨closing, by simpa using channel, deferred, authority⟩
  | _ => exact ⟨closing, channel, deferred, authority⟩

theorem Step.closed_mono (next : Step cfg log e event t) (closed : e.closed = true) :
    t.closed = true := by
  cases next with
  | close => rfl
  | _ => exact closed

theorem Reach.opened {allowed : Engine σ → Event → Prop} {start : σ}
    (reach : Reach cfg log allowed start e) (still : e.closed = false) : e.Opened := by
  induction reach with
  | start => exact ⟨rfl, List.not_mem_nil, List.not_mem_nil, by simp⟩
  | step before next allows ih =>
    refine next.opened (ih ?_) still
    by_contra closed
    rw [next.closed_mono (by simpa using closed)] at still
    cases still

theorem Reach.shut {allowed : Engine σ → Event → Prop} {start : σ}
    (reach : Reach cfg log allowed start e)
    (done : e.closing = .returned ∨ e.authority = .stopped) : e.closed = true := by
  by_contra still
  have opened := reach.opened (by simpa using still)
  rcases done with returned | stopped
  · rw [opened.closing] at returned
    cases returned
  · exact opened.authority stopped

theorem Reach.quiet {start : σ} (reach : Reach cfg log Calm start e) (closed : e.closed = true) :
    e.Quiet := by
  induction reach with
  | start => cases closed
  | @step e t event before next allows ih =>
    by_cases shut : e.closed = true
    · exact (next.quiet before.sound.1 (ih shut) shut).1
    · cases next with
      | close => exact ⟨allows.entering, allows.mailbox, allows.agent⟩
      | _ => exact absurd closed shut

/-- What the authority has to respond to after a step was sent to it before. -/
theorem Step.outstanding_subset (next : Step cfg log e event t) (sound : e.Sound)
    (after : t.Sound) (sent : e.Sent) : t.outstanding ⊆ e.outstanding := by
  intro c mem
  obtain ⟨waits, silent⟩ := after.outstanding c mem
  suffices e.agent c.account = .waiting c ∧ e.response c.account = none from
    sound.waiting _ c this.1 this.2
  have past {a : AccountID} {agent : Agent} (here : e.agent a = agent) : agent.Sent :=
    here ▸ sent.agent a
  have other {a : AccountID} {new : Agent} (going : update e.agent a new c.account = .waiting c)
      (gone : ∀ d, new ≠ .waiting d) : c.account ≠ a := by
    intro here
    rw [here, update_self] at going
    exact gone c going
  cases next with
  | take _ queued =>
    rw [sent.mailbox] at queued
    cases queued
  | lock here | decide here | send here => cases past here
  | resume here | unlock here | answer here =>
    have elsewhere := other waits (by simp)
    simp only [goTo, update_of_ne elsewhere] at waits silent
    exact ⟨waits, silent⟩
  | @known m | @respond m =>
    have elsewhere : c.account ≠ m.account := by
      intro here
      simp [Engine.respond, here] at silent
    simp only [Engine.respond, update_of_ne elsewhere] at waits silent
    exact ⟨waits, silent⟩
  | _ => exact ⟨waits, silent⟩

theorem Step.settled (next : Step cfg log e event t) (sound : e.Sound) (after : t.Sound)
    (settled : e.Settled) (closed : e.closed = true) : t.Settled := by
  have fewer := next.outstanding_subset sound after settled.toSent
  have past {a : AccountID} {agent : Agent} (here : e.agent a = agent) : agent.Sent :=
    here ▸ settled.agent a
  have goes (a : AccountID) {new : Agent} (sent : new.Sent) (b : AccountID) :
      (update e.agent a new b).Sent := by
    by_cases here : b = a <;> simp [here, sent, settled.agent]
  -- Where nothing is new about the close, what was left of the decisions becomes less.
  have kept (same : t.closing = e.closing)
      (running : t.authority = .stopped → e.authority = .stopped)
      (done : t.closing = .answered ∨ t.closing = .returned ∨ t.authority = .stopped) :
      t.outstanding = [] :=
    List.subset_nil.mp (settled.handled (same ▸ done.imp_right (.imp_right running)) ▸ fewer)
  obtain ⟨⟨entering, mailbox, agent⟩, channel, deferred, handled⟩ := settled
  have posts (k : Control) : List.Pairwise (fun x y => x = .control .close → y.commit? = none)
      (e.channel ++ [Message.control k]) ∧ (.close ∈ e.authority.deferred →
        ∀ y ∈ e.channel ++ [Message.control k], y.commit? = none) := by
    refine ⟨List.pairwise_append.mpr ⟨channel, by simp, ?_⟩, fun mem y there => ?_⟩
    · rintro x - y there -
      obtain rfl := List.mem_singleton.mp there
      rfl
    · rcases List.mem_append.mp there with old | new
      · exact deferred mem y old
      · obtain rfl := List.mem_singleton.mp new
        rfl
  cases next with
  | enter c valid opened | close opened =>
    rw [closed] at opened
    cases opened
  | enqueue here | full here =>
    rw [entering] at here
    simp at here
  | take _ queued =>
    rw [mailbox] at queued
    cases queued
  | lock here | decide here | send here => cases past here
  | resume | unlock | answer =>
    exact ⟨⟨entering, mailbox, goes _ trivial⟩, channel, deferred, kept rfl id⟩
  | receive idle queued =>
    rw [queued] at channel
    exact ⟨⟨entering, mailbox, agent⟩, channel.of_cons, by simp [Authority.deferred],
      kept rfl (by simp)⟩
  | @control k rest idle queued =>
    rw [queued] at channel
    obtain ⟨none, channel⟩ := List.pairwise_cons.mp channel
    refine ⟨⟨entering, mailbox, agent⟩, channel, by split <;> simp [Authority.deferred],
      fun done => ?_⟩
    by_cases here : k = .close
    · subst here
      simpa [Engine.outstanding, Authority.commits] using fun y mem => none y mem rfl
    · exact kept (if_neg here) (by simp [here]) done
  | collect here small queued =>
    rw [queued] at channel deferred
    rw [here] at deferred
    exact ⟨⟨entering, mailbox, agent⟩, channel.of_cons,
      fun mem y later => deferred mem y (List.mem_cons_of_mem _ later), kept rfl (by simp)⟩
  | @defer k rest _ _ here small queued =>
    rw [queued] at channel deferred
    rw [here] at deferred
    obtain ⟨none, channel⟩ := List.pairwise_cons.mp channel
    refine ⟨⟨entering, mailbox, agent⟩, channel, fun mem y later => ?_, kept rfl (by simp)⟩
    rcases List.mem_append.mp mem with mem | mem
    · exact deferred mem y (List.mem_cons_of_mem _ later)
    · exact none y later (by rw [← List.mem_singleton.mp mem])
  | cut here | cutPoisoned here | known here | again here | number here | nothing here | append here
  | fail here | apply here | applied here | respond here | responded here =>
    rw [here] at deferred
    exact ⟨⟨entering, mailbox, agent⟩, channel, deferred, kept rfl (by simp)⟩
  | @handle k rest here =>
    rw [here] at deferred
    refine ⟨⟨entering, mailbox, agent⟩, channel,
      fun mem => deferred (List.mem_cons_of_mem _ mem), fun done => ?_⟩
    by_cases close : k = .close
    · simpa [Engine.outstanding, Authority.commits, Engine.handle] using
        deferred (close ▸ List.mem_cons_self ..)
    · exact kept (if_neg close) (by simp) done
  | handled =>
    exact ⟨⟨entering, mailbox, agent⟩, channel, by simp [Authority.deferred], kept rfl (by simp)⟩
  | post =>
    refine ⟨⟨entering, mailbox, agent⟩, (posts .close).1, (posts .close).2, fun done => ?_⟩
    have stopped : e.authority = .stopped := by simpa using done
    exact List.subset_nil.mp (handled (.inr (.inr stopped)) ▸ fewer)
  | snapshot => exact ⟨⟨entering, mailbox, agent⟩, (posts _).1, (posts _).2, kept rfl id⟩
  | closed answered =>
    exact ⟨⟨entering, mailbox, agent⟩, channel, deferred,
      fun _ => List.subset_nil.mp (handled (.inl answered) ▸ fewer)⟩
  | _ => exact ⟨⟨entering, mailbox, agent⟩, channel, deferred, kept rfl id⟩

theorem Reach.settled {start : σ} (reach : Reach cfg log Behind start e)
    (closed : e.closed = true) : e.Settled := by
  induction reach with
  | start => cases closed
  | @step e t event before next allows ih =>
    by_cases shut : e.closed = true
    · exact next.settled before.sound.1 (before.step next allows).sound.1 (ih shut) shut
    · cases next with
      | close first =>
        have opened := before.opened first
        refine ⟨⟨allows.entering, allows.mailbox, allows.agent⟩, ?_,
          fun mem => absurd mem opened.deferred, ?_⟩
        · exact List.pairwise_of_forall_mem_list fun x mem y _ same =>
            absurd (same ▸ mem) opened.channel
        · rintro (done | done | stopped)
          · cases done
          · cases done
          · exact absurd stopped opened.authority
      | _ => exact absurd closed shut

theorem Reach.behind {start : σ} (reach : Reach cfg log Calm start e) :
    Reach cfg log Behind start e := by
  induction reach with
  | start => exact .start
  | @step e t event before next allows ih =>
    refine ih.step next ?_
    cases event with
    | close =>
      exact ⟨allows.entering, allows.mailbox, fun a => by rw [allows.agent]; trivial⟩
    | _ => trivial

/-- The engines that a run goes on to. -/
inductive Later (cfg : EngineConfig) (log : GroupLog σ) (allowed : Engine σ → Event → Prop)
    (e : Engine σ) : Engine σ → Prop
  | refl : Later cfg log allowed e e
  | step {s t : Engine σ} {event : Event} (before : Later cfg log allowed e s)
      (next : Step cfg log s event t) (allows : allowed s event) : Later cfg log allowed e t

theorem Reach.later {allowed : Engine σ → Event → Prop} {start : σ}
    (reach : Reach cfg log allowed start e) (later : Later cfg log allowed e t) :
    Reach cfg log allowed start t := by
  induction later with
  | refl => exact reach
  | step _ next allows ih => exact ih.step next allows

/-- Once the engine is closed, nothing is appended or answered any more. -/
theorem Later.still {start : σ} (reach : Reach cfg log Calm start e)
    (later : Later cfg log Calm e t) (closed : e.closed = true) :
    t.closed = true ∧ t.appended = e.appended ∧ t.answered = e.answered := by
  induction later with
  | refl => exact ⟨closed, rfl, rfl⟩
  | step before next allows ih =>
    have reached := reach.later before
    obtain ⟨shut, appended, answered⟩ := ih
    obtain ⟨-, shut', appended', answered'⟩ :=
      next.quiet reached.sound.1 (reached.quiet shut) shut
    exact ⟨shut', appended'.trans appended, answered'.trans answered⟩

/-- Nothing is appended any more once the authority of a closed engine has responded to all. -/
theorem Later.served {start : σ} (reach : Reach cfg log Behind start e)
    (later : Later cfg log Behind e t) (closed : e.closed = true) (served : e.outstanding = []) :
    t.closed = true ∧ t.outstanding = [] ∧ t.appended = e.appended := by
  induction later with
  | refl => exact ⟨closed, served, rfl⟩
  | step before next allows ih =>
    obtain ⟨shut, none, appended⟩ := ih
    have reached := reach.later before
    have fewer := next.outstanding_subset reached.sound.1 (reached.step next allows).sound.1
      (reached.settled shut).toSent
    refine ⟨next.closed_mono shut, List.subset_nil.mp (none ▸ fewer), Eq.trans ?_ appended⟩
    cases next with
    | append sorted nonempty =>
      simp only [Engine.outstanding, sorted, Authority.commits, List.map_eq_nil_iff,
        List.append_eq_nil_iff] at none
      exact absurd none.2.1.2 nonempty
    | _ => rfl

end Engine

/-! ## The engine's own steps come to an end -/

/-- How much an agent has still to do. -/
def Agent.weight : Agent → Nat
  | idle => 0
  | acquiring _ _ wanted => 100 + wanted.length
  | sending _ => 90
  | waiting _ => 20
  | releasing _ _ held => 5 + held.length

/-- How much the authority has still to do, the messages on the channel apart. -/
def Authority.weight : Authority → Nat
  | receiving => 0
  | collecting group deferred => 8 + 50 * group.length + 50 * deferred.length
  | sorting rest unique repeats deferred =>
    7 + 40 * rest.length + 30 * unique.length + 30 * repeats.length + 50 * deferred.length
  | applying rest unique repeats deferred =>
    6 + 10 * rest.length + 15 * unique.length + 15 * repeats.length + 50 * deferred.length
  | responding replies deferred => 3 + 10 * replies.length + 50 * deferred.length
  | controlling deferred => 1 + 50 * deferred.length
  | stopped => 0

def Closing.weight : Closing → Nat
  | .open => 0
  | .posting => 70
  | .awaiting => 2
  | .answered => 1
  | .returned => 0

theorem Closing.weight_handled (k : Control) (closing : Closing) :
    Closing.weight (if k = .close then .answered else closing) ≤ 1 + closing.weight := by
  split
  · exact Nat.le_add_right _ _
  · omega

theorem length_tokensFor (c : Command) : (tokensFor c).length ≤ 2 := by
  unfold tokensFor
  rw [List.length_insertionSort]
  split <;> simp

variable {c : Command} {a : AccountID}

namespace Engine

/-- A step that no caller asks for. -/
def Own (cfg : EngineConfig) (log : GroupLog σ) (e t : Engine σ) : Prop :=
  Step cfg log e .internal t ∨ Step cfg log e .fail t

/-- What an account has still to do. -/
def load (e : Engine σ) (a : AccountID) : Nat := 110 * (e.mailbox a).length + (e.agent a).weight

def accounts (e : Engine σ) : Finset AccountID := (e.submitted.map Command.account).toFinset

/-- What is still to do apart from the accounts. -/
def rest (e : Engine σ) : Nat :=
  120 * e.entering.length + 60 * e.channel.length + e.authority.weight + e.closing.weight

def weight (e : Engine σ) : Nat := (∑ a ∈ e.accounts, e.load a) + e.rest

theorem mem_accounts (mem : c ∈ e.submitted) : c.account ∈ e.accounts :=
  List.mem_toFinset.mpr (List.mem_map_of_mem mem)

theorem weight_lt (same : t.submitted = e.submitted) (mem : a ∈ e.accounts)
    (others : ∀ b, b ≠ a → t.load b = e.load b) (less : t.load a + t.rest < e.load a + e.rest) :
    t.weight < e.weight := by
  have accounts : t.accounts = e.accounts := by rw [Engine.accounts, same, Engine.accounts]
  have elsewhere : ∑ b ∈ e.accounts.erase a, t.load b = ∑ b ∈ e.accounts.erase a, e.load b :=
    Finset.sum_congr rfl fun b mem => others b (Finset.ne_of_mem_erase mem)
  rw [Engine.weight, Engine.weight, accounts, ← Finset.add_sum_erase _ _ mem,
    ← Finset.add_sum_erase _ e.load mem, elsewhere]
  omega

theorem weight_lt_of_rest (same : t.submitted = e.submitted) (mailbox : t.mailbox = e.mailbox)
    (agent : t.agent = e.agent) (less : t.rest < e.rest) : t.weight < e.weight := by
  have accounts : t.accounts = e.accounts := by rw [Engine.accounts, same, Engine.accounts]
  have load : t.load = e.load := by
    funext a
    rw [Engine.load, mailbox, agent, Engine.load]
  rw [Engine.weight, Engine.weight, accounts, load]
  omega

theorem weight_goTo (sound : e.Sound) {new : Agent} (command : (e.agent a).command = some c)
    (submitted : t.submitted = e.submitted) (mailbox : t.mailbox = e.mailbox)
    (agent : t.agent = update e.agent a new)
    (less : new.weight + t.rest < (e.agent a).weight + e.rest) : t.weight < e.weight := by
  obtain ⟨-, here, listed⟩ := sound.command a c command
  refine weight_lt submitted (here ▸ mem_accounts listed) (fun b other => ?_) ?_
  · rw [load, mailbox, agent, update_of_ne other, load]
  · rw [load, mailbox, agent, update_self, load]
    omega

/-- Every step of the engine's own leaves less to do. -/
theorem Own.weight_lt (sound : e.Sound) (own : Own cfg log e t) : t.weight < e.weight := by
  rcases own with next | next
  · cases next with
    | @enqueue c before behind entering room =>
      have listed := (sound.mailed.entering c (by simp [entering])).2
      refine Engine.weight_lt rfl (mem_accounts listed) (fun b other => ?_) ?_
      · simp [load, update_of_ne other]
      · simp only [load, rest, entering, update_self, List.length_append,
          List.length_cons, List.length_nil]
        omega
    | @take a c waiting idle queued =>
      obtain ⟨-, here, listed⟩ := sound.mailed.mailbox a c (by simp [queued])
      have tokens := length_tokensFor c
      refine Engine.weight_lt rfl (here ▸ mem_accounts listed) (fun b other => ?_) ?_
      · simp [load, goTo, update_of_ne other]
      · simp only [load, rest, goTo, update_self, idle, queued, Agent.weight,
          List.length_cons]
        omega
    | lock here free | decide here | send here room | unlock here | answer here =>
      refine weight_goTo sound (by rw [here]; rfl) rfl rfl rfl ?_
      simp only [here, Agent.weight, rest, goTo, List.length_append, List.length_cons,
        List.length_nil]
      omega
    | @resume a c outcome waits given =>
      have tokens := length_tokensFor c
      refine weight_goTo sound (by rw [waits]; rfl) rfl rfl rfl ?_
      simp only [waits, Agent.weight, rest, goTo]
      omega
    | receive here queued | collect here small queued | defer here small queued =>
      refine weight_lt_of_rest rfl rfl rfl ?_
      simp only [rest, here, queued, Authority.weight, List.length_append, List.length_cons,
        List.length_nil]
      omega
    | @control k behind idle queued =>
      refine weight_lt_of_rest rfl rfl rfl ?_
      have none : Authority.weight (if k = .close then .stopped else .receiving) = 0 := by
        split <;> rfl
      have done := Closing.weight_handled k e.closing
      simp only [rest, Engine.handle, queued, none, List.length_cons]
      omega
    | @handle k behind controlling =>
      refine weight_lt_of_rest rfl rfl rfl ?_
      have done := Closing.weight_handled k e.closing
      simp only [rest, Engine.handle, controlling, Authority.weight, List.length_cons]
      omega
    | full here | cut here | cutPoisoned here | known here | again here | number here | nothing here
    | append here | apply here | applied here | respond here | responded here | handled here
    | post here room | closed here =>
      refine weight_lt_of_rest rfl rfl rfl ?_
      simp only [rest, here, Authority.weight, Closing.weight, Engine.respond, Engine.apply,
        Engine.finish, failures, replies, List.length_map, List.length_append, List.length_cons,
        List.length_nil]
      omega
  · cases next with
    | fail sorted nonempty err left =>
      refine weight_lt_of_rest rfl rfl rfl ?_
      simp only [rest, sorted, Authority.weight, failures, List.length_map, List.length_append,
        List.length_nil]
      omega

/-! ## While a command is in the engine there is a step -/

theorem Own.cut {group : List Commit} {deferred : List Control}
    (collecting : e.authority = .collecting group deferred)
    (done : cfg.groupLimit ≤ group.length ∨ cfg.groupWait ≠ 0 ∨ e.channel = []) :
    ∃ t, Own cfg log e t := by
  cases poisoned : e.poisoned with
  | none => exact ⟨_, .inl (.cut collecting done poisoned)⟩
  | some err => exact ⟨_, .inl (.cutPoisoned collecting done poisoned)⟩

/-- The authority goes on with a group that it has begun. -/
theorem Own.authority (busy : e.authority ≠ .receiving) (running : e.authority ≠ .stopped) :
    ∃ t, Own cfg log e t := by
  cases authority : e.authority with
  | receiving => exact absurd authority busy
  | stopped => exact absurd authority running
  | collecting group deferred =>
    by_cases small : group.length < cfg.groupLimit
    · cases channel : e.channel with
      | nil => exact Own.cut authority (.inr (.inr channel))
      | cons message behind =>
        cases message with
        | commit m => exact ⟨_, .inl (.collect authority small channel)⟩
        | control k => exact ⟨_, .inl (.defer authority small channel)⟩
    · exact Own.cut authority (.inl (Nat.le_of_not_lt small))
  | sorting behind unique repeats deferred =>
    cases behind with
    | cons m behind =>
      cases prior : e.dedupe.results[m.record.commandID]? with
      | some result => exact ⟨_, .inl (.known authority prior)⟩
      | none =>
        cases first : unique.find? (·.record.commandID = m.record.commandID) with
        | some original => exact ⟨_, .inl (.again authority prior first)⟩
        | none => exact ⟨_, .inl (.number authority prior first)⟩
    | nil =>
      by_cases empty : unique = []
      · subst empty
        exact ⟨_, .inl (.nothing authority)⟩
      · cases appends : log.appendGroup e.log (unique.map Commit.record) with
        | ok after => exact ⟨_, .inl (.append authority empty appends)⟩
        | error err => exact ⟨_, .inr (.fail authority empty err e.log)⟩
  | applying behind unique repeats deferred =>
    cases behind with
    | nil => exact ⟨_, .inl (.applied authority)⟩
    | cons m behind => exact ⟨_, .inl (.apply authority)⟩
  | responding replies deferred =>
    cases replies with
    | nil => exact ⟨_, .inl (.responded authority)⟩
    | cons reply replies => exact ⟨_, .inl (.respond authority)⟩
  | controlling deferred =>
    cases deferred with
    | nil => exact ⟨_, .inl (.handled authority)⟩
    | cons k deferred => exact ⟨_, .inl (.handle authority)⟩

/-- An agent that does not wait for a token goes on, when the authority has responded to all. -/
theorem Own.agent (sound : e.Sound)
    (room : ∀ a m, e.agent a = .sending m → e.channel.length < cfg.authorityCapacity)
    (served : e.outstanding = []) (busy : e.agent a ≠ .idle)
    (free : ∀ x, e.Wants a x → e.locks x = none) :
    ∃ t, Own cfg log e t := by
  cases agent : e.agent a with
  | idle => exact absurd agent busy
  | acquiring c held wanted =>
    cases wanted with
    | nil => exact ⟨_, .inl (.decide agent)⟩
    | cons x wanted => exact ⟨_, .inl (.lock agent (free x ⟨c, held, wanted, agent⟩))⟩
  | sending m => exact ⟨_, .inl (.send agent (room a m agent))⟩
  | waiting c =>
    cases response : e.response a with
    | some outcome => exact ⟨_, .inl (.resume agent response)⟩
    | none =>
      have listed := sound.waiting a c agent response
      rw [served] at listed
      cases listed
  | releasing c outcome held =>
    rcases List.eq_nil_or_concat held with rfl | ⟨before, x, rfl⟩
    · exact ⟨_, .inl (.answer agent)⟩
    · exact ⟨_, .inl (.unlock (by rw [agent, List.concat_eq_append]))⟩

/-- Some agent goes on, since they do not wait in a circle. -/
theorem Own.agents (sound : e.Sound)
    (room : ∀ a m, e.agent a = .sending m → e.channel.length < cfg.authorityCapacity)
    (served : e.outstanding = []) (busy : e.agent a ≠ .idle) : ∃ t, Own cfg log e t := by
  by_cases free : ∀ x, e.Wants a x → e.locks x = none
  · exact Own.agent sound room served busy free
  · push Not at free
    obtain ⟨x, -, taken⟩ := free
    obtain ⟨b, held⟩ := Option.ne_none_iff_exists'.mp taken
    obtain ⟨j, ⟨y, holds⟩, unblocked⟩ :=
      @exists_free _ _ (fun a x => e.locks x = some a) e.Wants _ sound.ordered b x held
    have busy : e.agent j ≠ .idle := by
      intro idle
      have mine := (sound.locks y j).mp holds
      rw [idle] at mine
      cases mine
    refine Own.agent sound room served busy fun z wants => ?_
    by_contra taken
    obtain ⟨k, held⟩ := Option.ne_none_iff_exists'.mp taken
    exact unblocked z k wants held

/-- An engine that has no step of its own has no command in it. -/
theorem quiet_of_stuck {start : σ} (reach : Reach cfg log Behind start e)
    (stuck : ∀ t, ¬ Own cfg log e t) : e.Quiet := by
  have none : ¬ ∃ t, Own cfg log e t := fun ⟨t, own⟩ => stuck t own
  have served : e.outstanding = [] ∧
      ∀ a m, e.agent a = .sending m → e.channel.length < cfg.authorityCapacity := by
    by_cases stopped : e.authority = .stopped
    · have settled := reach.settled (reach.shut (.inr stopped))
      refine ⟨settled.handled (.inr (.inr stopped)), fun a m sending => ?_⟩
      have sent := settled.agent a
      rw [sending] at sent
      cases sent
    have receiving : e.authority = .receiving := by
      by_contra busy
      exact none (Own.authority busy stopped)
    have channel : e.channel = [] := by
      cases queued : e.channel with
      | nil => rfl
      | cons message behind =>
        cases message with
        | commit m => exact absurd (.inl (.receive receiving queued)) (stuck _)
        | control k => exact absurd (.inl (.control receiving queued)) (stuck _)
    refine ⟨by rw [Engine.outstanding, channel, receiving]; rfl, fun a m _ => ?_⟩
    rw [channel, EngineConfig.authorityCapacity]
    simp
  have idle (a : AccountID) : e.agent a = .idle := by
    by_contra busy
    exact none (Own.agents reach.sound.1 served.2 served.1 busy)
  refine ⟨?_, fun a => ?_, idle⟩
  · cases entering : e.entering with
    | nil => rfl
    | cons c behind =>
      by_cases room : (e.mailbox c.account).length < cfg.mailboxCapacity
      · exact absurd (.inl (@Step.enqueue _ cfg log e c [] behind entering room)) (stuck _)
      · exact absurd (.inl (@Step.full _ cfg log e c [] behind entering room)) (stuck _)
  · cases queued : e.mailbox a with
    | nil => rfl
    | cons c behind => exact absurd (.inl (.take (idle a) queued)) (stuck _)

/-- A command stays with its agent until it is answered. -/
theorem Step.kept (next : Step cfg log e event t) (command : (e.agent a).command = some c) :
    (t.agent a).command = some c ∨ ∃ o, (c, o) ∈ t.answered := by
  have goes {b : AccountID} {new : Agent} (same : new.command = (e.agent b).command) :
      (update e.agent b new a).command = some c := by
    by_cases here : a = b
    · subst here
      rw [update_self, same, command]
    · rw [update_of_ne here, command]
  cases next with
  | @take b d waiting idle queued =>
    have other : a ≠ b := by
      rintro rfl
      rw [idle] at command
      cases command
    exact .inl (by simp [goTo, update_of_ne other, command])
  | lock here | decide here | send here | resume here | unlock here =>
    exact .inl (goes (by rw [here]; rfl))
  | @answer b d outcome released =>
    by_cases here : a = b
    · subst here
      rw [released] at command
      obtain rfl := Option.some.inj command
      exact .inr ⟨outcome, by simp [goTo]⟩
    · exact .inl (by simp [goTo, update_of_ne here, command])
  | _ => exact .inl command

theorem Step.answered_subset (next : Step cfg log e event t) : e.answered ⊆ t.answered := by
  cases next with
  | answer => exact List.subset_append_left _ _
  | _ => exact List.Subset.refl _

theorem Own.later {start : σ} (reach : Reach cfg log Behind start e)
    (own : Relation.ReflTransGen (Own cfg log) e t) : Reach cfg log Behind start t := by
  induction own with
  | refl => exact reach
  | tail _ next ih => exact next.elim (ih.step · trivial) (ih.step · trivial)

theorem Own.kept (own : Relation.ReflTransGen (Own cfg log) e t)
    (command : (e.agent a).command = some c) :
    (t.agent a).command = some c ∨ ∃ o, (c, o) ∈ t.answered := by
  have step {s t : Engine σ} {event : Event} (next : Step cfg log s event t)
      (before : (s.agent a).command = some c ∨ ∃ o, (c, o) ∈ s.answered) :
      (t.agent a).command = some c ∨ ∃ o, (c, o) ∈ t.answered :=
    before.elim next.kept fun ⟨o, mem⟩ => .inr ⟨o, next.answered_subset mem⟩
  induction own with
  | refl => exact .inl command
  | tail _ next ih => exact next.elim (step · ih) (step · ih)

/-- No endless run of the engine's own steps begins here. -/
theorem Reach.ends {start : σ} (reach : Reach cfg log Behind start e) :
    Acc (fun t s => Own cfg log s t) e := by
  induction bound : e.weight using Nat.strong_induction_on generalizing e with
  | _ n ih =>
    refine ⟨e, fun t own => ?_⟩
    exact ih t.weight (bound ▸ Own.weight_lt reach.sound.1 own) (Own.later reach (.single own)) rfl

/-- Where these steps have come to their end, every command that an agent had has been answered. -/
theorem Reach.answers {start : σ} (reach : Reach cfg log Behind start e)
    (own : Relation.ReflTransGen (Own cfg log) e t) (stuck : ∀ u, ¬ Own cfg log t u)
    (command : (e.agent a).command = some c) : ∃ o, (c, o) ∈ t.answered := by
  have quiet := quiet_of_stuck (Own.later reach own) stuck
  rcases Own.kept own command with kept | answered
  · rw [quiet.agent] at kept
    cases kept
  · exact answered

/-- The segments as the log of the engine. Runs with it take no snapshots. -/
def segmentLog : GroupLog M1Storage where
  appendGroup := M1Storage.appendGroup
  close s := M1Storage.closeSegment { s with trail := [] } true
  snapshotAtFrontier := id

def Any (_ : Engine σ) (_ : Event) : Prop := True

/-- An agent whose authority has stopped before it read the request waits in every later state. -/
theorem Later.waiting (later : Later cfg log Any e t) (stopped : e.authority = .stopped)
    (waits : e.agent a = .waiting c) (silent : e.response a = none) :
    t.authority = .stopped ∧ t.agent a = .waiting c ∧ t.response a = none := by
  induction later with
  | refl => exact ⟨stopped, waits, silent⟩
  | @step s t event before next allows ih =>
    obtain ⟨stopped, waits, silent⟩ := ih
    have elsewhere {b : AccountID} {agent : Agent} (here : s.agent b = agent)
        (other : agent ≠ .waiting c) : a ≠ b := by
      rintro rfl
      exact other (here.symm.trans waits)
    cases next with
    | take here | lock here | decide here | send here | unlock here | answer here =>
      have other := elsewhere here (by simp)
      exact ⟨stopped, by simpa [goTo, update_of_ne other] using waits, silent⟩
    | @resume b d outcome here given =>
      have other : a ≠ b := by
        rintro rfl
        rw [silent] at given
        cases given
      simp only [goTo, update_of_ne other]
      exact ⟨stopped, waits, silent⟩
    | receive here | control here | collect here | defer here | cut here | cutPoisoned here
    | known here | again here | number here | nothing here | append here | fail here | apply here
    | applied here | respond here | responded here | handle here | handled here =>
      rw [stopped] at here
      cases here
    | _ => exact ⟨stopped, waits, silent⟩

/-- The close is read first, with a request behind it. -/
theorem stranded : ∃ e : Engine M1Storage,
    Reach pairConfig segmentLog Any { segmentRecords := 4096 } e ∧
      e.authority = .stopped ∧ ∀ t, Later pairConfig segmentLog Any e t →
        t.agent 1 = .waiting firstCommand := by
  have decided : Reach pairConfig segmentLog Any { segmentRecords := 4096 } _ :=
    bothDecided_reach (fun _ _ _ => trivial) fun _ => trivial
  have posted := (decided.step (.close rfl) trivial).step (.post rfl (by decide)) trivial
  have sent := posted.step
    (.send (a := 1) (show _ = Agent.sending firstCommit from rfl) (by decide)) trivial
  have stopped := sent.step (.control rfl
    (show _ = [Message.control .close, .commit firstCommit] from rfl)) trivial
  exact ⟨_, stopped, rfl, fun t later => (later.waiting rfl rfl rfl).2.1⟩

def firstRecord : LogRecord := (firstCommit.number 1).record

def secondRecord : LogRecord := (secondCommit.number 2).record

/-- The log behind the first group. -/
def oneRecord : M1Storage :=
  (M1Storage.appendGroup { segmentRecords := 4096 } [firstRecord]).toOption.getD
    { segmentRecords := 0 }

/-- The log that was closed, and then takes another group. -/
def afterClose : M1Storage :=
  ((segmentLog.close oneRecord).appendGroup [secondRecord]).toOption.getD { segmentRecords := 0 }

theorem ok_getD {x : Except String M1Storage} {d : M1Storage}
    (some : x.toOption.isSome = true) : x = .ok (x.toOption.getD d) := by
  cases x with
  | ok a => rfl
  | error err => cases some

set_option maxRecDepth 20000 in
theorem oneRecord_appended :
    M1Storage.appendGroup { segmentRecords := 4096 } [firstRecord] = .ok oneRecord :=
  ok_getD (by decide +kernel)

set_option maxRecDepth 20000 in
theorem afterClose_appended :
    (segmentLog.close oneRecord).appendGroup [secondRecord] = .ok afterClose :=
  ok_getD (by decide +kernel)

/-- The close is deferred behind the first group; the second command is decided before and sent
after `Close` has returned. -/
theorem committed_late : ∃ e t : Engine M1Storage,
    Reach pairConfig segmentLog Any { segmentRecords := 4096 } e ∧ e.closing = .returned ∧
      e.appended = [firstRecord] ∧ e.answered = [] ∧ Later pairConfig segmentLog Any e t ∧
      t.appended = [firstRecord, secondRecord] ∧
      t.answered = [(secondCommand, .ok secondRecord.result)] := by
  have decided : Reach pairConfig segmentLog Any { segmentRecords := 4096 } _ :=
    bothDecided_reach (fun _ _ _ => trivial) fun _ => trivial
  have received := (decided.step
    (.send (a := 1) (show _ = Agent.sending firstCommit from rfl) (by decide)) trivial).step
    (.receive rfl (show _ = [Message.commit firstCommit] from rfl)) trivial
  have posted := (received.step (.close rfl) trivial).step (.post rfl (by decide)) trivial
  have deferred := posted.step (.defer (show _ = Authority.collecting [firstCommit] [] from rfl)
    (by decide) (show _ = [Message.control .close] from rfl)) trivial
  have cut := deferred.step (.cut (show _ = Authority.collecting [firstCommit] [.close] from rfl)
    (.inr (.inl (by decide))) rfl) trivial
  have numbered := cut.step
    (.number (show _ = Authority.sorting [firstCommit] [] [] [.close] from rfl) rfl rfl) trivial
  have appended := numbered.step
    (.append (show _ = Authority.sorting [] [firstCommit.number 1] [] [.close] from rfl) (by simp)
      oneRecord_appended) trivial
  have applied := (appended.step (.apply (show _ = Authority.applying [firstCommit.number 1]
    [firstCommit.number 1] [] [.close] from rfl)) trivial).step (.applied rfl) trivial
  have responded := (applied.step (.respond (show _ = Authority.responding
    [(firstCommit.number 1, .ok firstRecord.result)] [.close] from rfl)) trivial).step
    (.responded rfl) trivial
  have returned := (responded.step (.handle (show _ = Authority.controlling [.close] from rfl))
    trivial).step (.closed rfl) trivial
  have onward {e : Engine M1Storage}
      (_ : Reach pairConfig segmentLog Any { segmentRecords := 4096 } e) :
      Later pairConfig segmentLog Any e e := .refl
  have sent := (((onward returned).step (.handled rfl) trivial).step
    (.send (a := 2) (show _ = Agent.sending secondCommit from rfl) (by decide)) trivial).step
    (.receive rfl (show _ = [Message.commit secondCommit] from rfl)) trivial
  have numbered := (sent.step (.cut (show _ = Authority.collecting [secondCommit] [] from rfl)
    (.inr (.inl (by decide))) rfl) trivial).step
    (.number (show _ = Authority.sorting [secondCommit] [] [] [] from rfl) (by decide +kernel) rfl)
    trivial
  have appended := numbered.step
    (.append (show _ = Authority.sorting [] [secondCommit.number 2] [] [] from rfl) (by simp)
      afterClose_appended) trivial
  have applied := (appended.step (.apply (show _ = Authority.applying [secondCommit.number 2]
    [secondCommit.number 2] [] [] from rfl)) trivial).step (.applied rfl) trivial
  have responded := applied.step (.respond (show _ = Authority.responding
    [(secondCommit.number 2, .ok secondRecord.result)] [] from rfl)) trivial
  have resumed := responded.step (.resume (a := 2) (show _ = Agent.waiting secondCommand from rfl)
    (show _ = some (.ok secondRecord.result) from rfl)) trivial
  have unlocked := resumed.step (.unlock (a := 2) (show _ = Agent.releasing secondCommand
    (.ok secondRecord.result) ([] ++ [2]) from rfl)) trivial
  exact ⟨_, _, returned, rfl, rfl, rfl, unlocked.step (.answer (a := 2) rfl) trivial, rfl, rfl⟩

def replied (e : Engine σ) (c : Command) : Nat :=
  (e.answered.map Prod.fst).count c + e.refused.count (c, .mailboxFull)

/-- How often it is on its way or has got one. -/
def tally (e : Engine σ) (c : Command) : Nat :=
  e.entering.count c + (e.mailbox c.account).count c +
    (e.agent c.account).command.toList.count c + e.replied c

theorem Step.tally (next : Step cfg log e event t) (sound : e.Sound)
    (before : e.submitted.count c = e.tally c) : t.submitted.count c = t.tally c := by
  have goes {b : AccountID} {new : Agent} (same : new.command = (e.agent b).command) :
      (update e.agent b new c.account).command = (e.agent c.account).command := by
    by_cases here : c.account = b <;> simp [here, same]
  cases next with
  | invalid | shut | enter | enqueue | full => grind [Engine.tally, replied, update]
  | @take a d _ idle queued =>
    by_cases here : c.account = a
    · subst here
      simp_all [Engine.tally, goTo, Agent.command, List.count_cons, replied]
      omega
    · simp_all [Engine.tally, goTo, replied]
  | lock here | decide here | send here | resume here | unlock here =>
    rw [Engine.tally, goTo, goes (by rw [here]; rfl)]
    exact before
  | @answer a d _ released =>
    have own := (sound.command a d (by rw [released]; rfl)).2.1
    by_cases here : c.account = a
    · subst here
      simp_all [Engine.tally, goTo, Agent.command, List.count_cons, replied]
      omega
    · have other : d ≠ c := by grind
      simp_all [Engine.tally, goTo, replied]
  | _ => exact before

theorem Reach.tally {allowed : Engine σ → Event → Prop} {start : σ}
    (reach : Reach cfg log allowed start e) (c : Command) : e.submitted.count c = e.tally c := by
  induction reach with
  | start => rfl
  | step before next _ ih => exact next.tally before.sound.1 ih

/-- No command gets more answers than it was let in times, whatever happens. With a calm close the
engine's own steps come to an end in every order, and then it has got as many. -/
theorem replied_as_submitted {start : σ} (reach : Reach cfg log Any start e) (c : Command) :
    e.replied c ≤ e.submitted.count c ∧
      (Reach cfg log Calm start e → Acc (fun t s => Own cfg log s t) e ∧
        ∀ t, Relation.ReflTransGen (Own cfg log) e t → (∀ u, ¬ Own cfg log t u) →
          t.replied c = t.submitted.count c) := by
  refine ⟨by rw [reach.tally c, Engine.tally]; omega,
    fun calm => ⟨calm.behind.ends, fun t own stuck => ?_⟩⟩
  have reached := Own.later calm.behind own
  obtain ⟨entering, mailbox, agent⟩ := quiet_of_stuck reached stuck
  simp [reached.tally c, Engine.tally, entering, mailbox, agent, Agent.command]

theorem replied_as_submitted_first : ∃ e : Engine (List LogRecord), e.answered.length = 2 ∧
    e.submitted = [firstCommand, secondCommand] ∧
      e.replied firstCommand ≤ e.submitted.count firstCommand := by
  obtain ⟨e, reach, submitted, -, answered, -⟩ :=
    @paired_run Any (fun _ _ _ => trivial) fun _ => trivial
  have two : e.answered.length = 2 := by rw [answered]; rfl
  exact ⟨e, two, submitted, (replied_as_submitted reach firstCommand).1⟩

end Engine

end OctetDB.Research
