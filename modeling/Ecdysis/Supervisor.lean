/-
# Supervised streams and objects

The faithful model of `supervisor.rs`: the supervisor, which publishes the run state through
a watch channel, the `StoppableStream`s and `Stoppable`s it hands out, and the calls of
`until_stopped` and `until_stopped_mut`, in all interleavings of their polls with `stop_all`
and with the supervisor being dropped.  A poll is not atomic: each look at the channel is a
step of its own.

What is polled inside is left open: an inner stream is any sequence of results, which come
whenever it is ready, and the future of a call finishes at any time or never.  `select!`
polls its two branches in any order, so the steps of a call are those of its future and
those of `stopped_fut` in any order.
-/
import Ecdysis.WatchChannel
import Ecdysis.Upgrader

namespace Supervisor

open Upgrader (ExitCondition StopOnShutdown)

/-- `RunState`; `none` means run. -/
abbrev RunState := Option ExitCondition

/-! ## Streams -/

/-- An inner stream: what its polls return when they are ready, in order, and what they have
returned so far; `none` is `Pending`, and `some none` the end of the stream. -/
structure Inner (ι : Type) where
  script : ℕ → Option ι
  log : List (Option (Option ι))

namespace Inner

variable {ι : Type}

/-- How many polls were ready. -/
def taken (s : Inner ι) : ℕ := (s.log.filterMap id).length

/-- Poll the stream when it is ready, or when it is not. -/
def poll (s : Inner ι) (ready : Bool) : Option (Option ι) :=
  if ready then some (s.script s.taken) else none

/-- The stream after a poll. -/
def polled (s : Inner ι) (ready : Bool) : Inner ι := { s with log := s.log ++ [s.poll ready] }

end Inner

/-- Where a `StoppableStream` stands: between two polls; in the loop that drains the channel;
after it.  A poll comes with the run state at its beginning. -/
inductive Stage
  | idle
  | draining (since : RunState)
  | drained (since : RunState)
  deriving DecidableEq

/-- A poll that has returned: the run state at its beginning, whether it polled the inner
stream, and its result. -/
structure Polled (ι : Type) where
  since : RunState
  inner : Bool
  result : Option (Option ι)

/-- `StoppableStream`, with its polls so far. -/
structure StoppableStream (ι : Type) where
  stream : Inner ι
  stopOnShutdown : StopOnShutdown
  rx : WatchStream
  state : RunState
  stage : Stage
  polls : List (Polled ι)

namespace StoppableStream

variable {ι : Type}

/-- `StoppableStream::new`. -/
def new (stream : Inner ι) (stopOnShutdown : StopOnShutdown) (rx : WatchReceiver) :
    StoppableStream ι :=
  ⟨stream, stopOnShutdown, ⟨true, rx⟩, none, .idle, []⟩

/-- `poll_next` begins. -/
def start (s : StoppableStream ι) (c : WatchChannel RunState) : Option (StoppableStream ι) :=
  match s.stage with
  | .idle => some { s with stage := .draining c.value }
  | _ => none

/-- One round of the loop: it ends when the channel has nothing new, or is closed. -/
def drain (s : StoppableStream ι) (c : WatchChannel RunState) : Option (StoppableStream ι) :=
  match s.stage with
  | .draining since =>
    match c.pollStream s.rx with
    | some (some (state, rx)) => some { s with state := state, rx := rx }
    | _ => some { s with stage := .drained since }
  | _ => none

/-- The end of `poll_next`. -/
def finish (s : StoppableStream ι) (ready : Bool) : Option (StoppableStream ι) :=
  match s.stage with
  | .drained since =>
    if s.stopOnShutdown.shouldContinue s.state then
      some { s with
        stream := s.stream.polled ready
        stage := .idle
        polls := s.polls ++ [⟨since, true, s.stream.poll ready⟩] }
    else some { s with stage := .idle, polls := s.polls ++ [⟨since, false, some none⟩] }
  | _ => none

end StoppableStream

/-! ## Objects -/

/-- `Stoppable`, without the object itself. -/
structure Stoppable where
  rx : WatchReceiver
  stopOnShutdown : StopOnShutdown

/-- Where `stopped_fut` stands: about to look at the run state, or at `changed`. -/
inductive StoppedFut
  | check
  | change
  deriving DecidableEq

/-- What has become of a call. -/
inductive Outcome (O : Type)
  | running
  | returned (o : Option O)
  | panicked

/-- A call of `until_stopped`, or with `mutable` of `until_stopped_mut`, of object `owner`. -/
structure Call (O : Type) where
  owner : ℕ
  mutable : Bool
  stopOnShutdown : StopOnShutdown
  rx : WatchReceiver
  stopped : StoppedFut
  outcome : Outcome O

namespace Call

variable {O : Type}

/-- The future of the closure is polled: it is ready with its output, or it is not. -/
def pollFuture (k : Call O) (o : Option O) : Option (Call O) :=
  match k.outcome with
  | .running => some (o.elim k fun out => { k with outcome := .returned (some out) })
  | _ => none

/-- One step of `stopped_fut`: the condition of its loop, or `changed().await.unwrap()`. -/
def pollStopped (k : Call O) (c : WatchChannel RunState) : Option (Call O) :=
  match k.outcome, k.stopped with
  | .running, .check =>
    if k.stopOnShutdown.shouldContinue c.value then some { k with stopped := .change }
    else some { k with outcome := .returned none }
  | .running, .change =>
    match c.changed k.rx with
    | .pending => some k
    | .seen rx => some { k with rx := rx, stopped := .check }
    | .closed => some { k with outcome := .panicked }
  | _, _ => none

end Call

/-! ## The supervisor and what it supervises -/

/-- The supervisor's channel, with everything that was made from it.  The receiver of the
supervisor itself is never used to look at the channel, and has seen its first value. -/
structure Site (ι O : Type) where
  channel : WatchChannel RunState
  streams : List (StoppableStream ι)
  stoppables : List Stoppable
  calls : List (Call O)

/-- What can happen. -/
inductive Event (ι O : Type)
  | stopAll (ec : ExitCondition)
  | drop
  | superviseStream (stream : ℕ → Option ι) (stopOnShutdown : StopOnShutdown)
  | supervise (stopOnShutdown : StopOnShutdown)
  | start (j : ℕ)
  | drain (j : ℕ)
  | finish (j : ℕ) (ready : Bool)
  | untilStopped (i : ℕ) (mutable : Bool)
  | future (n : ℕ) (o : Option O)
  | stopped (n : ℕ)

namespace Site

variable {ι O : Type}

/-- The receiver of `Supervisor::new`. -/
def rx : WatchReceiver := ⟨0⟩

/-- Change stream `j`. -/
def onStream (s : Site ι O) (j : ℕ) (f : StoppableStream ι → Option (StoppableStream ι)) :
    Option (Site ι O) :=
  (s.streams[j]?.bind f).map fun st => { s with streams := s.streams.set j st }

/-- Change call `n`; the receiver of a call with mutable access is the object's. -/
def onCall (s : Site ι O) (n : ℕ) (f : Call O → Option (Call O)) : Option (Site ι O) :=
  (s.calls[n]?.bind f).map fun k =>
    { s with
      calls := s.calls.set n k
      stoppables :=
        if k.mutable then s.stoppables.modify k.owner fun b => { b with rx := k.rx }
        else s.stoppables }

/-- One step.  `stop_all` runs at most once, and with the supervisor everything that needs
it is gone. -/
def step (s : Site ι O) : Event ι O → Option (Site ι O)
  | .stopAll ec =>
    if s.channel.closed = false ∧ s.channel.version = 0 then
      some { s with channel := s.channel.send (some ec) }
    else none
  | .drop => if s.channel.closed then none else some { s with channel := s.channel.close }
  | .superviseStream stream flag =>
    if s.channel.closed then none
    else some { s with streams := s.streams ++ [.new ⟨stream, []⟩ flag rx] }
  | .supervise flag =>
    if s.channel.closed then none
    else some { s with stoppables := s.stoppables ++ [⟨rx, flag⟩] }
  | .start j => s.onStream j fun st => st.start s.channel
  | .drain j => s.onStream j fun st => st.drain s.channel
  | .finish j ready => s.onStream j fun st => st.finish ready
  | .untilStopped i mutable =>
    s.stoppables[i]?.map fun b =>
      { s with calls := s.calls ++ [⟨i, mutable, b.stopOnShutdown, b.rx, .check, .running⟩] }
  | .future n o => s.onCall n fun k => k.pollFuture o
  | .stopped n => s.onCall n fun k => k.pollStopped s.channel

/-- `Supervisor::new`. -/
def new : Site ι O := ⟨.new none, [], [], []⟩

end Site

/-- **All interleavings.** -/
def supervision (ι O : Type) : TransitionSystem (Site ι O) (Event ι O) where
  Init := fun s => s = .new
  step := Site.step

/-! ## What every step keeps -/

/-- The run states of a channel: before `stop_all`, the process runs. -/
def Sane (c : WatchChannel RunState) : Prop := c.version = 0 → c.value = none

namespace Inner

variable {ι : Type}

/-- The ready polls have returned what the script says. -/
def Scripted (s : Inner ι) : Prop := s.log.filterMap id = (List.range s.taken).map s.script

theorem Scripted.polled {s : Inner ι} (h : s.Scripted) (ready : Bool) :
    (s.polled ready).Scripted := by
  cases ready with
  | false => simpa [Scripted, Inner.polled, poll, taken] using h
  | true =>
    have htaken : (s.polled true).taken = s.taken + 1 := by
      simp [taken, Inner.polled, poll]
    rw [Scripted, htaken, List.range_succ, List.map_append, Inner.polled, List.filterMap_append,
      show s.log.filterMap id = _ from h]
    simp [poll]

end Inner

/-- What is known of a stream: what it has seen of the run state, what its polls returned,
and that it stays ended. -/
structure StoppableStream.Fit {ι : Type} (c : WatchChannel RunState) (st : StoppableStream ι) :
    Prop where
  seen : st.rx.rx.seen ≤ c.version
  current : st.rx.fresh = false → st.rx.rx.seen = c.version → st.state = c.value
  known : st.state = none ∨ st.state = c.value
  since : ∀ v, st.stage = .draining v ∨ st.stage = .drained v → v = none ∨ v = c.value
  drained : ∀ v, st.stage = .drained v → v = c.value → st.state = c.value
  scripted : st.stream.Scripted
  forwarded : (st.polls.filter Polled.inner).map Polled.result = st.stream.log
  refused : ∀ p ∈ st.polls, p.inner = false → p.result = some none
  stopped : ∀ p ∈ st.polls, st.stopOnShutdown.shouldContinue p.since = false → p.inner = false
  ended : (∃ p ∈ st.polls, p.inner = false) →
    st.stopOnShutdown.shouldContinue c.value = false ∧
      ∀ v, st.stage = .draining v ∨ st.stage = .drained v → v = c.value
  order : st.polls.Pairwise fun p q => p.inner = false → q.inner = false

namespace StoppableStream

variable {ι : Type} {c : WatchChannel RunState} {st st' : StoppableStream ι}

theorem fit_new (stream : ℕ → Option ι) (flag : StopOnShutdown) :
    (new ⟨stream, []⟩ flag Site.rx).Fit c where
  seen := Nat.zero_le _
  current := nofun
  known := .inl rfl
  since := by rintro v (h | h) <;> cases h
  drained := nofun
  scripted := rfl
  forwarded := rfl
  refused := by simp [new]
  stopped := by simp [new]
  ended := by simp [new]
  order := .nil

/-- `stop_all` leaves what is known, the state being unseen. -/
theorem Fit.send (h : st.Fit c) (hc : Sane c) (hversion : c.version = 0) (ec : ExitCondition) :
    st.Fit (c.send (some ec)) := by
  have hvalue := hc hversion
  have hseen := h.seen
  refine ⟨?_, ?_, ?_, ?_, ?_, h.scripted, h.forwarded, h.refused, h.stopped, ?_, h.order⟩
  · simp only [WatchChannel.send]
    omega
  · intro _ heq
    simp only [WatchChannel.send] at heq
    omega
  · left
    simpa [hvalue] using h.known
  · intro v hv
    left
    simpa [hvalue] using h.since v hv
  · intro v hv heq
    have hnone : v = none := by simpa [hvalue] using h.since v (.inr hv)
    rw [hnone] at heq
    cases heq
  · intro hp
    have hstop := (h.ended hp).1
    rw [hvalue] at hstop
    cases hstop

theorem Fit.close (h : st.Fit c) : st.Fit c.close :=
  ⟨h.seen, h.current, h.known, h.since, h.drained, h.scripted, h.forwarded, h.refused, h.stopped,
    h.ended, h.order⟩

theorem Fit.start (h : st.Fit c) (hs : st.start c = some st') : st'.Fit c := by
  unfold StoppableStream.start at hs
  split at hs
  · cases hs
    refine ⟨h.seen, h.current, h.known, ?_, nofun, h.scripted, h.forwarded, h.refused, h.stopped,
      ?_, h.order⟩
    · rintro v (hv | hv) <;> cases hv
      exact .inr rfl
    · intro hp
      refine ⟨(h.ended hp).1, ?_⟩
      rintro v (hv | hv) <;> cases hv
      rfl
  · cases hs

theorem Fit.drain (h : st.Fit c) (hs : st.drain c = some st') : st'.Fit c := by
  unfold StoppableStream.drain at hs
  split at hs
  · rename_i since hstage
    split at hs
    -- the channel has something new
    · rename_i state rx hpoll
      cases hs
      obtain ⟨rfl, rfl⟩ := WatchChannel.pollStream_eq_some hpoll
      exact ⟨le_rfl, fun _ _ => rfl, .inr rfl, h.since, fun _ _ _ => rfl, h.scripted, h.forwarded,
        h.refused, h.stopped, h.ended, h.order⟩
    -- the loop ends with the run state up to date
    · rename_i hpoll
      cases hs
      obtain ⟨hfresh, hseen⟩ := WatchChannel.pollStream_ne_some hpoll
      refine ⟨h.seen, h.current, h.known, ?_, fun _ _ _ => h.current hfresh hseen, h.scripted,
        h.forwarded, h.refused, h.stopped, ?_, h.order⟩
      · rintro v (hv | hv) <;> cases hv
        exact h.since _ (.inl hstage)
      · intro hp
        refine ⟨(h.ended hp).1, ?_⟩
        rintro v (hv | hv) <;> cases hv
        exact (h.ended hp).2 _ (.inl hstage)
  · cases hs

/-- A poll that goes on to the inner stream. -/
theorem Fit.forward (h : st.Fit c) {since : RunState} (hstage : st.stage = .drained since)
    (hcontinue : st.stopOnShutdown.shouldContinue st.state = true) (ready : Bool) :
    Fit c { st with
      stream := st.stream.polled ready
      stage := .idle
      polls := st.polls ++ [⟨since, true, st.stream.poll ready⟩] } := by
  -- a poll that began in the present run state has noticed it
  have hstate : since = c.value → st.state = c.value := h.drained since hstage
  have hgoing : ∀ p ∈ st.polls, p.inner = true := by
    intro p hp
    by_contra hne
    rw [Bool.not_eq_true] at hne
    obtain ⟨hstop, hsince⟩ := h.ended ⟨p, hp, hne⟩
    rw [hstate (hsince since (.inr hstage)), hstop] at hcontinue
    cases hcontinue
  refine ⟨h.seen, h.current, h.known, (by rintro v (hv | hv) <;> cases hv), nofun,
    h.scripted.polled ready, ?_, ?_, ?_, ?_, ?_⟩
  · simp [List.filter_append, h.forwarded, Inner.polled]
  · intro p hp hinner
    rcases List.mem_append.mp hp with hp | hp
    · exact h.refused p hp hinner
    · cases List.mem_singleton.mp hp
      cases hinner
  · intro p hp hstop
    rcases List.mem_append.mp hp with hp | hp
    · exact h.stopped p hp hstop
    · cases List.mem_singleton.mp hp
      rcases h.since since (.inr hstage) with rfl | hvalue
      · cases hstop
      · rw [hstate hvalue, ← hvalue, hstop] at hcontinue
        cases hcontinue
  · rintro ⟨p, hp, hinner⟩
    rcases List.mem_append.mp hp with hp | hp
    · rw [hgoing p hp] at hinner
      cases hinner
    · cases List.mem_singleton.mp hp
      cases hinner
  · refine List.pairwise_append.mpr ⟨h.order, List.pairwise_singleton .., ?_⟩
    intro p hp q _ hinner
    rw [hgoing p hp] at hinner
    cases hinner

/-- A poll that ends the stream. -/
theorem Fit.refuse (h : st.Fit c) {since : RunState}
    (hcontinue : st.stopOnShutdown.shouldContinue st.state = false) :
    Fit c { st with stage := .idle, polls := st.polls ++ [⟨since, false, some none⟩] } := by
  have hvalue : st.state = c.value := by
    rcases h.known with hnone | hvalue
    · rw [hnone] at hcontinue
      cases hcontinue
    · exact hvalue
  rw [hvalue] at hcontinue
  refine ⟨h.seen, h.current, h.known, (by rintro v (hv | hv) <;> cases hv), nofun, h.scripted,
    ?_, ?_, ?_, fun _ => ⟨hcontinue, (by rintro v (hv | hv) <;> cases hv)⟩, ?_⟩
  · simp [List.filter_append, h.forwarded]
  · intro p hp hinner
    rcases List.mem_append.mp hp with hp | hp
    · exact h.refused p hp hinner
    · cases List.mem_singleton.mp hp
      rfl
  · intro p hp hstop
    rcases List.mem_append.mp hp with hp | hp
    · exact h.stopped p hp hstop
    · cases List.mem_singleton.mp hp
      rfl
  · refine List.pairwise_append.mpr ⟨h.order, List.pairwise_singleton .., ?_⟩
    intro p _ q hq _
    cases List.mem_singleton.mp hq
    rfl

theorem Fit.finish (h : st.Fit c) {ready : Bool} (hs : st.finish ready = some st') :
    st'.Fit c := by
  unfold StoppableStream.finish at hs
  split at hs
  · rename_i since hstage
    split at hs
    · rename_i hcontinue
      cases hs
      exact h.forward hstage hcontinue ready
    · rename_i hcontinue
      cases hs
      exact h.refuse (by simpa using hcontinue)
  · cases hs

end StoppableStream

/-- What is known of a call: what it has seen of the run state, and that it was told to stop
if it returned for that reason. -/
structure Call.Fit {O : Type} (c : WatchChannel RunState) (k : Call O) : Prop where
  seen : k.rx.seen ≤ c.version
  change : k.stopped = .change → k.rx.seen = c.version →
    k.stopOnShutdown.shouldContinue c.value = true
  stopped : k.outcome = .returned none → k.stopOnShutdown.shouldContinue c.value = false

namespace Call

variable {O : Type} {c : WatchChannel RunState} {k k' : Call O}

theorem Fit.send (h : k.Fit c) (hc : Sane c) (hversion : c.version = 0) (ec : ExitCondition) :
    k.Fit (c.send (some ec)) := by
  have hseen := h.seen
  refine ⟨?_, ?_, ?_⟩
  · simp only [WatchChannel.send]
    omega
  · intro _ heq
    simp only [WatchChannel.send] at heq
    omega
  · intro hreturned
    have hstop := h.stopped hreturned
    rw [hc hversion] at hstop
    cases hstop

theorem Fit.close (h : k.Fit c) : k.Fit c.close := ⟨h.seen, h.change, h.stopped⟩

theorem Fit.pollFuture (h : k.Fit c) {o : Option O} (hk : k.pollFuture o = some k') :
    k'.Fit c := by
  unfold Call.pollFuture at hk
  split at hk
  · cases o with
    | none =>
      cases hk
      exact h
    | some out =>
      cases hk
      exact ⟨h.seen, h.change, nofun⟩
  · cases hk

theorem Fit.pollStopped (h : k.Fit c) (hk : k.pollStopped c = some k') : k'.Fit c := by
  unfold Call.pollStopped at hk
  split at hk
  · split at hk
    · rename_i hcontinue
      cases hk
      exact ⟨h.seen, fun _ _ => hcontinue, h.stopped⟩
    · rename_i hcontinue
      rw [Bool.not_eq_true] at hcontinue
      cases hk
      exact ⟨h.seen, h.change, fun _ => hcontinue⟩
  · split at hk
    · cases hk
      exact h
    · rename_i rx hrx
      cases hk
      obtain ⟨-, rfl⟩ := WatchChannel.changed_eq_seen hrx
      exact ⟨le_rfl, nofun, h.stopped⟩
    · cases hk
      exact ⟨h.seen, h.change, nofun⟩
  · cases hk

end Call

namespace Site

variable {ι O : Type} {s s' : Site ι O}

/-- The invariant. -/
structure Fit (s : Site ι O) : Prop where
  sane : Sane s.channel
  streams : ∀ st ∈ s.streams, st.Fit s.channel
  stoppables : ∀ b ∈ s.stoppables, b.rx.seen ≤ s.channel.version
  calls : ∀ k ∈ s.calls, k.Fit s.channel

theorem Fit.onStream (h : s.Fit) {j : ℕ}
    {f : StoppableStream ι → Option (StoppableStream ι)}
    (hf : ∀ st st', st.Fit s.channel → f st = some st' → st'.Fit s.channel)
    (hs : s.onStream j f = some s') : s'.Fit := by
  obtain ⟨st', hst', rfl⟩ := Option.map_eq_some_iff.mp hs
  obtain ⟨st, hst, hfst⟩ := Option.bind_eq_some_iff.mp hst'
  refine ⟨h.sane, ?_, h.stoppables, h.calls⟩
  intro u hu
  rcases List.mem_or_eq_of_mem_set hu with hmem | rfl
  · exact h.streams u hmem
  · exact hf st u (h.streams st (List.mem_of_getElem? hst)) hfst

theorem Fit.onCall (h : s.Fit) {n : ℕ} {f : Call O → Option (Call O)}
    (hf : ∀ k k', k.Fit s.channel → f k = some k' → k'.Fit s.channel)
    (hs : s.onCall n f = some s') : s'.Fit := by
  obtain ⟨k', hk', rfl⟩ := Option.map_eq_some_iff.mp hs
  obtain ⟨k, hk, hfk⟩ := Option.bind_eq_some_iff.mp hk'
  have hfit : k'.Fit s.channel := hf k k' (h.calls k (List.mem_of_getElem? hk)) hfk
  refine ⟨h.sane, h.streams, ?_, ?_⟩
  · intro b hb
    simp only at hb
    split at hb
    · obtain ⟨i, hi⟩ := List.mem_iff_getElem?.mp hb
      rw [List.getElem?_modify] at hi
      obtain ⟨b', hb', rfl⟩ := Option.map_eq_some_iff.mp hi
      split
      · exact hfit.seen
      · exact h.stoppables b' (List.mem_of_getElem? hb')
    · exact h.stoppables b hb
  · intro u hu
    rcases List.mem_or_eq_of_mem_set hu with hmem | rfl
    · exact h.calls u hmem
    · exact hfit

/-- **Step lemma**: every step keeps the invariant. -/
theorem Fit.step (h : s.Fit) {e : Event ι O} (hs : s.step e = some s') : s'.Fit := by
  cases e with
  | stopAll ec =>
    simp only [Site.step] at hs
    split at hs
    · rename_i hguard
      cases hs
      refine ⟨?_, ?_, ?_, ?_⟩
      · intro hversion
        cases hversion
      · intro st hst
        exact (h.streams st hst).send h.sane hguard.2 ec
      · intro b hb
        exact (h.stoppables b hb).trans (Nat.le_succ _)
      · intro k hk
        exact (h.calls k hk).send h.sane hguard.2 ec
    · cases hs
  | drop =>
    simp only [Site.step] at hs
    split at hs
    · cases hs
    · cases hs
      exact ⟨h.sane, fun st hst => (h.streams st hst).close, h.stoppables,
        fun k hk => (h.calls k hk).close⟩
  | superviseStream stream flag =>
    simp only [Site.step] at hs
    split at hs
    · cases hs
    · cases hs
      refine ⟨h.sane, ?_, h.stoppables, h.calls⟩
      intro st hst
      rcases List.mem_append.mp hst with hst | hst
      · exact h.streams st hst
      · cases List.mem_singleton.mp hst
        exact StoppableStream.fit_new stream flag
  | supervise flag =>
    simp only [Site.step] at hs
    split at hs
    · cases hs
    · cases hs
      refine ⟨h.sane, h.streams, ?_, h.calls⟩
      intro b hb
      rcases List.mem_append.mp hb with hb | hb
      · exact h.stoppables b hb
      · cases List.mem_singleton.mp hb
        exact Nat.zero_le _
  | start j => exact h.onStream (fun _ _ hst => hst.start) hs
  | drain j => exact h.onStream (fun _ _ hst => hst.drain) hs
  | finish j ready => exact h.onStream (fun _ _ hst => hst.finish) hs
  | untilStopped i mutable =>
    obtain ⟨b, hb, rfl⟩ := Option.map_eq_some_iff.mp hs
    refine ⟨h.sane, h.streams, h.stoppables, ?_⟩
    intro k hk
    rcases List.mem_append.mp hk with hk | hk
    · exact h.calls k hk
    · cases List.mem_singleton.mp hk
      exact ⟨h.stoppables b (List.mem_of_getElem? hb), nofun, nofun⟩
  | future n o => exact h.onCall (fun _ _ hk => hk.pollFuture) hs
  | stopped n => exact h.onCall (fun _ _ hk => hk.pollStopped) hs

end Site

/-- **Run lemma**: the invariant holds in every state of every run. -/
theorem fit_of_reachable {ι O : Type} {s : Site ι O} (hr : (supervision ι O).Reachable s) :
    s.Fit := by
  refine hr.invariant ?_ ?_
  · rintro _ rfl
    exact ⟨fun _ => rfl, by simp [Site.new], by simp [Site.new], by simp [Site.new]⟩
  · intro s e s' _ hs hstep
    exact hs.step hstep

end Supervisor
