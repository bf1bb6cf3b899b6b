/-
# What supervised streams and objects do at a shutdown

Two results about everything that is made from one supervisor.

* `stoppable_agrees` : a call of `until_stopped` or `until_stopped_mut` returns `None` exactly
  in the states in which a `StoppableStream` with the same `StopOnShutdown` ends because of
  the shutdown.  It never panics as long as it is not polled after the supervisor has been
  dropped in a run state in which it goes on; there, `changed().await.unwrap()` panics.
* `stoppable_stream_prefix` : a `StoppableStream` yields what its inner stream yields, in
  order, up to the shutdown, and stays ended from then on.
-/
import Ecdysis.Supervisor

namespace Supervisor

open Upgrader (ExitCondition StopOnShutdown)

variable {ι O : Type} {s s' : Site ι O}

/-! ## Polls while nothing else happens -/

namespace Site

/-- Stream `j`, polled while nothing else happens, ends because of the shutdown: it does not
poll its inner stream. -/
def EndsStream (s : Site ι O) (j : ℕ) : Prop :=
  ∃ m ready s' st p, (supervision ι O).run s
      (([.start j] ++ List.replicate m (.drain j)) ++ [.finish j ready]) = some s' ∧
    s'.streams[j]? = some st ∧ st.polls.getLast? = some p ∧ p.inner = false

/-- Call `n`, while only its `stopped_fut` is polled, comes to `outcome`. -/
def EndsCall (s : Site ι O) (n : ℕ) (outcome : Outcome O) : Prop :=
  ∃ m s' k, (supervision ι O).run s (List.replicate m (.stopped n)) = some s' ∧
    s'.calls[n]? = some k ∧ k.outcome = outcome

theorem onStream_eq_some {j : ℕ} {st st' : StoppableStream ι}
    {f : StoppableStream ι → Option (StoppableStream ι)} (hst : s.streams[j]? = some st)
    (hf : f st = some st') :
    ∃ s', s.onStream j f = some s' ∧ s'.channel = s.channel ∧ s'.streams[j]? = some st' := by
  have hj : j < s.streams.length := (List.getElem?_eq_some_iff.mp hst).1
  refine ⟨{ s with streams := s.streams.set j st' }, ?_, rfl, ?_⟩
  · rw [onStream, hst, Option.bind_some, hf, Option.map_some]
  · simp [hj]

theorem onCall_eq_some {n : ℕ} {k k' : Call O} {f : Call O → Option (Call O)}
    (hk : s.calls[n]? = some k) (hf : f k = some k') :
    ∃ s', s.onCall n f = some s' ∧ s'.channel = s.channel ∧ s'.calls[n]? = some k' := by
  have hn : n < s.calls.length := (List.getElem?_eq_some_iff.mp hk).1
  rw [onCall, hk, Option.bind_some, hf, Option.map_some]
  exact ⟨_, rfl, rfl, by simp [hn]⟩

/-- What is fixed when a stream is made, with the channel. -/
def Fixed (s : Site ι O) (j : ℕ) (c : WatchChannel RunState) (flag : StopOnShutdown) : Prop :=
  s.channel = c ∧ (s.streams[j]?).map StoppableStream.stopOnShutdown = some flag

theorem Fixed.onStream {j : ℕ} {c : WatchChannel RunState} {flag : StopOnShutdown}
    {f : StoppableStream ι → Option (StoppableStream ι)} (h : s.Fixed j c flag)
    (hf : ∀ st st', f st = some st' → st'.stopOnShutdown = st.stopOnShutdown)
    (hs : s.onStream j f = some s') : s'.Fixed j c flag := by
  obtain ⟨st', hst', rfl⟩ := Option.map_eq_some_iff.mp hs
  obtain ⟨st, hst, hfst⟩ := Option.bind_eq_some_iff.mp hst'
  have hj : j < s.streams.length := (List.getElem?_eq_some_iff.mp hst).1
  refine ⟨h.1, ?_⟩
  have hflag := h.2
  rw [hst, Option.map_some] at hflag
  simpa [hj, hf st st' hfst] using hflag

/-- What is fixed when a call is made, with the channel. -/
def FixedCall (s : Site ι O) (n : ℕ) (c : WatchChannel RunState) (flag : StopOnShutdown) : Prop :=
  s.channel = c ∧ (s.calls[n]?).map Call.stopOnShutdown = some flag

end Site

namespace StoppableStream

variable {c : WatchChannel RunState} {st st' : StoppableStream ι}

theorem stopOnShutdown_start (h : st.start c = some st') :
    st'.stopOnShutdown = st.stopOnShutdown := by
  unfold start at h
  split at h <;> cases h
  rfl

theorem stopOnShutdown_drain (h : st.drain c = some st') :
    st'.stopOnShutdown = st.stopOnShutdown := by
  unfold drain at h
  split at h
  · split at h <;> cases h <;> rfl
  · cases h

theorem stopOnShutdown_finish {ready : Bool} (h : st.finish ready = some st') :
    st'.stopOnShutdown = st.stopOnShutdown := by
  unfold finish at h
  split at h
  · split at h <;> cases h <;> rfl
  · cases h

/-- **The loop ends**: while nothing else happens, after at most two rounds, with the state
up to date. -/
theorem drain_ends {since : RunState} (h : st.stage = .draining since) :
    ∃ st', (st.drain c = some st' ∨ (st.drain c).bind (fun u => u.drain c) = some st') ∧
      st'.stage = .drained since ∧ st'.stopOnShutdown = st.stopOnShutdown := by
  cases hpoll : c.pollStream st.rx with
  | none =>
    refine ⟨{ st with stage := .drained since }, .inl ?_, rfl, rfl⟩
    simp [drain, h, hpoll]
  | some r =>
    cases r with
    | none =>
      refine ⟨{ st with stage := .drained since }, .inl ?_, rfl, rfl⟩
      simp [drain, h, hpoll]
    | some r =>
      obtain ⟨state, rx⟩ := r
      obtain ⟨rfl, rfl⟩ := WatchChannel.pollStream_eq_some hpoll
      refine ⟨{ st with state := c.value, rx := ⟨false, ⟨c.version⟩⟩, stage := .drained since },
        .inr ?_, rfl, rfl⟩
      have hagain := WatchChannel.pollStream_seen (c := c) ⟨c.version⟩ rfl
      cases hclosed : c.closed <;> simp [drain, h, hpoll, hagain, hclosed]

end StoppableStream

namespace Site

variable {j n : ℕ} {st : StoppableStream ι} {k : Call O}

/-- A poll that has begun gets through its loop. -/
theorem run_drain {since : RunState} (hst : s.streams[j]? = some st)
    (hstage : st.stage = .draining since) :
    ∃ m ≤ 2, ∃ s' st', (supervision ι O).run s (List.replicate m (.drain j)) = some s' ∧
      s'.channel = s.channel ∧ s'.streams[j]? = some st' ∧ st'.stage = .drained since ∧
      st'.stopOnShutdown = st.stopOnShutdown := by
  obtain ⟨st', hdrain | hdrain, hstage', hflag⟩ :=
    StoppableStream.drain_ends (c := s.channel) hstage
  · obtain ⟨s₁, hs₁, hchannel, hst₁⟩ :=
      onStream_eq_some (f := fun st => st.drain s.channel) hst hdrain
    refine ⟨1, by omega, s₁, st', ?_, hchannel, hst₁, hstage', hflag⟩
    exact (TransitionSystem.run_singleton ..).trans hs₁
  · obtain ⟨u, hu, hdrain⟩ := Option.bind_eq_some_iff.mp hdrain
    obtain ⟨s₁, hs₁, hchannel₁, hst₁⟩ :=
      onStream_eq_some (f := fun st => st.drain s.channel) hst hu
    obtain ⟨s₂, hs₂, hchannel₂, hst₂⟩ :=
      onStream_eq_some (f := fun st => st.drain s₁.channel) hst₁ (by rwa [hchannel₁])
    refine ⟨2, le_rfl, s₂, st', ?_, hchannel₂.trans hchannel₁, hst₂, hstage', hflag⟩
    have hstep₁ : (supervision ι O).step s (.drain j) = some s₁ := hs₁
    rw [List.replicate_succ, TransitionSystem.run_cons, hstep₁]
    exact (TransitionSystem.run_singleton ..).trans hs₂

/-- **When a stream ends because of the shutdown.** -/
theorem endsStream_iff (hr : (supervision ι O).Reachable s) (hst : s.streams[j]? = some st)
    (hidle : st.stage = .idle) :
    s.EndsStream j ↔ st.stopOnShutdown.shouldContinue s.channel.value = false := by
  constructor
  · rintro ⟨m, ready, s', st', p, hrun, hst', hlast, hinner⟩
    have hfixed : s'.Fixed j s.channel st.stopOnShutdown := by
      refine TransitionSystem.run_preserves (P := fun u => u.Fixed j s.channel st.stopOnShutdown)
        ?_ ⟨rfl, by rw [hst, Option.map_some]⟩ hrun
      intro e he u u' hu hs
      simp only [List.mem_append, List.mem_singleton, List.mem_replicate] at he
      rcases he with (rfl | ⟨-, rfl⟩) | rfl
      · exact hu.onStream (fun _ _ => StoppableStream.stopOnShutdown_start) hs
      · exact hu.onStream (fun _ _ => StoppableStream.stopOnShutdown_drain) hs
      · exact hu.onStream (fun _ _ => StoppableStream.stopOnShutdown_finish) hs
    have hfit := fit_of_reachable (TransitionSystem.reachable_of_run hr hrun)
    have hended := ((hfit.streams st' (List.mem_of_getElem? hst')).ended
      ⟨p, List.mem_of_getLast? hlast, hinner⟩).1
    have hflag := hfixed.2
    rw [hst', Option.map_some, Option.some.injEq] at hflag
    rwa [hfixed.1, hflag] at hended
  · intro hstop
    have hstart : st.start s.channel = some { st with stage := .draining s.channel.value } := by
      rw [StoppableStream.start, hidle]
    obtain ⟨s₁, hs₁, hchannel₁, hst₁⟩ :=
      onStream_eq_some (f := fun st => st.start s.channel) hst hstart
    obtain ⟨m, -, s₂, st₂, hrun₂, hchannel₂, hst₂, hstage₂, hflag₂⟩ := run_drain hst₁ rfl
    have hstep₁ : (supervision ι O).step s (.start j) = some s₁ := hs₁
    have hfit := fit_of_reachable (TransitionSystem.reachable_of_run (hr.step hstep₁) hrun₂)
    have hvalue : s₂.channel.value = s.channel.value := by rw [hchannel₂, hchannel₁]
    have hstate : st₂.state = s.channel.value := by
      rw [← hvalue]
      exact (hfit.streams st₂ (List.mem_of_getElem? hst₂)).drained _ hstage₂ hvalue.symm
    have hfinish : st₂.finish false = some { st₂ with
        stage := .idle, polls := st₂.polls ++ [⟨s.channel.value, false, some none⟩] } := by
      simp [StoppableStream.finish, hstage₂, hstate, hflag₂, hstop]
    obtain ⟨s₃, hs₃, -, hst₃⟩ := onStream_eq_some (f := fun st => st.finish false) hst₂ hfinish
    refine ⟨m, false, s₃, _, ⟨s.channel.value, false, some none⟩, ?_, hst₃, by simp, rfl⟩
    rw [TransitionSystem.run_append, TransitionSystem.run_append,
      TransitionSystem.run_singleton, hstep₁, Option.bind_some, hrun₂, Option.bind_some]
    exact (TransitionSystem.run_singleton ..).trans hs₃

/-- The steps of `stopped_fut` leave what is fixed. -/
theorem fixedCall_stopped {m : ℕ} (hk : s.calls[n]? = some k)
    (hrun : (supervision ι O).run s (List.replicate m (.stopped n)) = some s') :
    s'.FixedCall n s.channel k.stopOnShutdown := by
  refine TransitionSystem.run_preserves
    (P := fun u => u.FixedCall n s.channel k.stopOnShutdown) ?_
    ⟨rfl, by rw [hk, Option.map_some]⟩ hrun
  intro e he u u' hu hs
  obtain rfl := (List.mem_replicate.mp he).2
  obtain ⟨k', hk', rfl⟩ := Option.map_eq_some_iff.mp hs
  obtain ⟨k₀, hk₀, hstep⟩ := Option.bind_eq_some_iff.mp hk'
  have hn : n < u.calls.length := (List.getElem?_eq_some_iff.mp hk₀).1
  have hflag := hu.2
  rw [hk₀, Option.map_some] at hflag
  refine ⟨hu.1, ?_⟩
  have hsame : k'.stopOnShutdown = k₀.stopOnShutdown := by
    unfold Call.pollStopped at hstep
    split at hstep
    · split at hstep <;> cases hstep <;> rfl
    · split at hstep <;> cases hstep <;> rfl
    · cases hstep
  simpa [hn, hsame] using hflag

/-- One step of `stopped_fut`, and then more of them. -/
theorem EndsCall.step {k' : Call O} {outcome : Outcome O} (hk : s.calls[n]? = some k)
    (hstep : k.pollStopped s.channel = some k')
    (hrest : ∀ s' : Site ι O, s'.channel = s.channel → s'.calls[n]? = some k' →
      s'.EndsCall n outcome) :
    s.EndsCall n outcome := by
  obtain ⟨s₁, hs₁, hchannel, hk₁⟩ :=
    onCall_eq_some (f := fun k => k.pollStopped s.channel) hk hstep
  obtain ⟨m, s', k'', hrun, hk'', houtcome⟩ := hrest s₁ hchannel hk₁
  refine ⟨m + 1, s', k'', ?_, hk'', houtcome⟩
  have hstep₁ : (supervision ι O).step s (.stopped n) = some s₁ := hs₁
  rw [List.replicate_succ, TransitionSystem.run_cons, hstep₁]
  exact hrun

theorem EndsCall.done {outcome : Outcome O} (hk : s.calls[n]? = some k)
    (houtcome : k.outcome = outcome) : s.EndsCall n outcome :=
  ⟨0, s, k, rfl, hk, houtcome⟩

/-- A call whose `stopped_fut` looks at a run state that stops it returns. -/
theorem endsCall_check (hk : s.calls[n]? = some k) (hrunning : k.outcome = .running)
    (hcheck : k.stopped = .check)
    (hstop : k.stopOnShutdown.shouldContinue s.channel.value = false) :
    s.EndsCall n (.returned none) := by
  have hstep : k.pollStopped s.channel = some { k with outcome := .returned none } := by
    simp [Call.pollStopped, hrunning, hcheck, hstop]
  exact .step hk hstep fun s' _ hk' => .done hk' rfl

/-- **When a call returns because it is stopped.** -/
theorem endsCall_iff (hr : (supervision ι O).Reachable s) (hk : s.calls[n]? = some k)
    (hrunning : k.outcome = .running) :
    s.EndsCall n (.returned none) ↔
      k.stopOnShutdown.shouldContinue s.channel.value = false := by
  constructor
  · rintro ⟨m, s', k', hrun, hk', houtcome⟩
    obtain ⟨hchannel, hflag⟩ := fixedCall_stopped hk hrun
    have hfit := fit_of_reachable (TransitionSystem.reachable_of_run hr hrun)
    have hstop := (hfit.calls k' (List.mem_of_getElem? hk')).stopped houtcome
    rw [hk', Option.map_some, Option.some.injEq] at hflag
    rwa [hchannel, hflag] at hstop
  · intro hstop
    cases hstopped : k.stopped with
    | check => exact endsCall_check hk hrunning hstopped hstop
    | change =>
      -- what stops it has not been seen, or it would not be waiting
      have hunseen : k.rx.seen ≠ s.channel.version := by
        intro hseen
        have hfit := (fit_of_reachable hr).calls k (List.mem_of_getElem? hk)
        rw [hfit.change hstopped hseen] at hstop
        cases hstop
      have hstep : k.pollStopped s.channel
          = some { k with rx := ⟨s.channel.version⟩, stopped := .check } := by
        simp [Call.pollStopped, hrunning, hstopped, WatchChannel.changed_of_ne hunseen]
      refine .step hk hstep fun s' hchannel hk' => endsCall_check hk' hrunning rfl ?_
      rw [hchannel]
      exact hstop

/-- A call that waits for a change it will not see panics. -/
theorem endsCall_panicked_of_seen (hk : s.calls[n]? = some k) (hrunning : k.outcome = .running)
    (hchange : k.stopped = .change) (hseen : k.rx.seen = s.channel.version)
    (hclosed : s.channel.closed = true) : s.EndsCall n .panicked := by
  have hstep : k.pollStopped s.channel = some { k with outcome := .panicked } := by
    simp [Call.pollStopped, hrunning, hchange, WatchChannel.changed_of_eq hseen, hclosed]
  exact .step hk hstep fun s' _ hk' => .done hk' rfl

/-- The loop goes on, and the last value has been seen. -/
theorem endsCall_panicked_of_check (hk : s.calls[n]? = some k) (hrunning : k.outcome = .running)
    (hcheck : k.stopped = .check) (hseen : k.rx.seen = s.channel.version)
    (hclosed : s.channel.closed = true)
    (hgoing : k.stopOnShutdown.shouldContinue s.channel.value = true) :
    s.EndsCall n .panicked := by
  have hstep : k.pollStopped s.channel = some { k with stopped := .change } := by
    simp [Call.pollStopped, hrunning, hcheck, hgoing]
  refine .step hk hstep fun s' hchannel hk' => ?_
  rw [← hchannel] at hseen hclosed
  exact endsCall_panicked_of_seen hk' hrunning rfl hseen hclosed

/-- At `changed`, the last value may be unseen; then the loop goes round once more. -/
theorem endsCall_panicked_of_change (hk : s.calls[n]? = some k) (hrunning : k.outcome = .running)
    (hchange : k.stopped = .change) (hclosed : s.channel.closed = true)
    (hgoing : k.stopOnShutdown.shouldContinue s.channel.value = true) :
    s.EndsCall n .panicked := by
  by_cases hseen : k.rx.seen = s.channel.version
  · exact endsCall_panicked_of_seen hk hrunning hchange hseen hclosed
  · have hstep : k.pollStopped s.channel
        = some { k with rx := ⟨s.channel.version⟩, stopped := .check } := by
      simp [Call.pollStopped, hrunning, hchange, WatchChannel.changed_of_ne hseen]
    refine .step hk hstep fun s' hchannel hk' => ?_
    rw [← hchannel] at hclosed hgoing hk'
    exact endsCall_panicked_of_check hk' hrunning rfl rfl hclosed hgoing

/-- **When a call panics**: the supervisor is gone and the run state lets it go on. -/
theorem endsCall_panicked (hk : s.calls[n]? = some k) (hrunning : k.outcome = .running)
    (hclosed : s.channel.closed = true)
    (hgoing : k.stopOnShutdown.shouldContinue s.channel.value = true) :
    s.EndsCall n .panicked := by
  cases hstopped : k.stopped with
  | change => exact endsCall_panicked_of_change hk hrunning hstopped hclosed hgoing
  | check =>
    have hstep : k.pollStopped s.channel = some { k with stopped := .change } := by
      simp [Call.pollStopped, hrunning, hstopped, hgoing]
    refine .step hk hstep fun s' hchannel hk' => ?_
    rw [← hchannel] at hclosed hgoing
    exact endsCall_panicked_of_change hk' hrunning rfl hclosed hgoing

end Site

/-! ## Calls and streams agree -/

/-- No `stopped_fut` is polled after the supervisor has been dropped in a run state in which
its object goes on. -/
def Site.heeded (s : Site ι O) : Event ι O → Bool
  | .stopped n => (s.calls[n]?).all fun k =>
    !(s.channel.closed && k.stopOnShutdown.shouldContinue s.channel.value)
  | _ => true

/-- A step of `stopped_fut` that panics finds the supervisor gone and goes on. -/
theorem Call.Fit.pollStopped_panicked {c : WatchChannel RunState} {k k' : Call O} (h : k.Fit c)
    (hk : k.pollStopped c = some k') (hpanic : k'.outcome = .panicked) :
    c.closed = true ∧ k.stopOnShutdown.shouldContinue c.value = true := by
  unfold Call.pollStopped at hk
  split at hk
  · rename_i hrunning _
    split at hk <;> cases hk
    · rw [hrunning] at hpanic
      cases hpanic
    · cases hpanic
  · rename_i hrunning hchange
    split at hk
    · cases hk
      rw [hrunning] at hpanic
      cases hpanic
    · cases hk
      rw [hrunning] at hpanic
      cases hpanic
    · rename_i hchanged
      obtain ⟨hseen, hclosed⟩ := WatchChannel.changed_eq_closed hchanged
      exact ⟨hclosed, h.change hchange hseen⟩
  · cases hk

/-- **No call panics** in a run that heeds the condition. -/
theorem no_panic (hr : (supervision ι O).ReachableVia (fun s e => s.heeded e = true) s) :
    ∀ k ∈ s.calls, k.outcome ≠ .panicked := by
  refine hr.invariant (I := fun s => ∀ k ∈ s.calls, k.outcome ≠ .panicked) ?_ ?_
  · rintro _ rfl
    simp [Site.new]
  · intro s e s' hr ih hheeded hs
    have honCall : ∀ n (f : Call O → Option (Call O)), s.onCall n f = some s' →
        (∀ k k', s.calls[n]? = some k → f k = some k' → k'.outcome ≠ .panicked) →
        ∀ k ∈ s'.calls, k.outcome ≠ .panicked := by
      intro n f hf hkeep k hk
      obtain ⟨k', hk', rfl⟩ := Option.map_eq_some_iff.mp hf
      obtain ⟨k₀, hk₀, hfk⟩ := Option.bind_eq_some_iff.mp hk'
      rcases List.mem_or_eq_of_mem_set hk with hmem | rfl
      · exact ih k hmem
      · exact hkeep k₀ k hk₀ hfk
    have honStream : ∀ j (f : StoppableStream ι → Option (StoppableStream ι)),
        s.onStream j f = some s' → s'.calls = s.calls := by
      intro j f hf
      obtain ⟨st', -, rfl⟩ := Option.map_eq_some_iff.mp hf
      rfl
    cases e with
    | stopAll ec | drop | superviseStream stream flag | supervise flag =>
      simp only [supervision, Site.step] at hs
      split at hs <;> cases hs
      exact ih
    | start j | drain j | finish j ready =>
      rw [honStream j _ hs]
      exact ih
    | untilStopped i mutable =>
      obtain ⟨b, hb, rfl⟩ := Option.map_eq_some_iff.mp hs
      intro k hk
      rcases List.mem_append.mp hk with hk | hk
      · exact ih k hk
      · cases List.mem_singleton.mp hk
        intro hpanic
        cases hpanic
    | future n o =>
      refine honCall n _ hs fun k k' hk hfk => ?_
      unfold Call.pollFuture at hfk
      split at hfk
      · cases o <;> cases hfk
        · exact ih k (List.mem_of_getElem? hk)
        · intro hpanic
          cases hpanic
      · cases hfk
    | stopped n =>
      refine honCall n _ hs fun k k' hk hfk hpanic => ?_
      have hfit := (fit_of_reachable hr.reachable).calls k (List.mem_of_getElem? hk)
      obtain ⟨hclosed, hgoing⟩ := hfit.pollStopped_panicked hfk hpanic
      simp [Site.heeded, hk, hclosed, hgoing] at hheeded

/-- **Calls and streams agree, and calls panic only when the supervisor is gone.**  In every
run, a call that has returned `None` was told to stop; a running call, whose `stopped_fut`
is polled, returns `None` exactly when `should_continue` is false of the run state, which is
exactly when a stream with the same `StopOnShutdown` that is polled ends because of the
shutdown.  No call ever panics, provided that no `stopped_fut` is polled after the
supervisor has been dropped in a run state in which its object goes on; and there it
panics. -/
theorem stoppable_agrees (hr : (supervision ι O).Reachable s) :
    ((supervision ι O).ReachableVia (fun s e => s.heeded e = true) s →
      ∀ k ∈ s.calls, k.outcome ≠ .panicked) ∧
    (∀ k ∈ s.calls, k.outcome = .returned none →
      k.stopOnShutdown.shouldContinue s.channel.value = false) ∧
    ∀ n k, s.calls[n]? = some k → k.outcome = .running →
      (s.EndsCall n (.returned none) ↔
        k.stopOnShutdown.shouldContinue s.channel.value = false) ∧
      (∀ j st, s.streams[j]? = some st → st.stage = .idle →
        st.stopOnShutdown = k.stopOnShutdown →
        (s.EndsCall n (.returned none) ↔ s.EndsStream j)) ∧
      (s.channel.closed = true → k.stopOnShutdown.shouldContinue s.channel.value = true →
        s.EndsCall n .panicked) := by
  refine ⟨no_panic, ?_, ?_⟩
  · intro k hk
    exact ((fit_of_reachable hr).calls k hk).stopped
  · intro n k hk hrunning
    have hcall := Site.endsCall_iff hr hk hrunning
    refine ⟨hcall, ?_, Site.endsCall_panicked hk hrunning⟩
    intro j st hst hidle hflag
    rw [hcall, Site.endsStream_iff hr hst hidle, hflag]

/-- The runtime is told to upgrade while a call with mutable access waits; a stream is made
after that. -/
def upgradeWhileWaiting : List (Event ℕ ℕ) :=
  [.supervise .no, .untilStopped 0 true, .stopped 0, .stopped 0, .stopAll .upgrade,
    .superviseStream (fun _ => none) .no]

/-- A call runs, a stream is idle, both for the same `StopOnShutdown`, and the run state is
that of an upgrade. -/
def upgradeSeen (s : Site ℕ ℕ) : Bool :=
  match s.calls, s.streams, s.channel.value with
  | [⟨_, _, .no, _, _, .running⟩], [⟨_, .no, _, _, .idle, _⟩], some .upgrade => true
  | _, _, _ => false

/-- There, both end. -/
theorem stoppable_agrees_upgrade :
    ∃ s : Site ℕ ℕ, (supervision ℕ ℕ).Reachable s ∧ (∀ k ∈ s.calls, k.outcome ≠ .panicked) ∧
      s.EndsCall 0 (.returned none) ∧ s.EndsStream 0 := by
  have hrun : (((supervision ℕ ℕ).runVia (fun s e => s.heeded e) .new upgradeWhileWaiting).map
      upgradeSeen) = some true := by
    decide +kernel
  obtain ⟨s, hs, hseen⟩ := Option.map_eq_some_iff.mp hrun
  have hvia := TransitionSystem.reachableVia_of_runVia
    (M := supervision ℕ ℕ) (g := fun s e => s.heeded e) (.init rfl) hs
  obtain ⟨hpanic, -, hagree⟩ := stoppable_agrees hvia.reachable
  unfold upgradeSeen at hseen
  split at hseen
  · rename_i i m rx stopped stream rx' state polls hcalls hstreams hvalue
    obtain ⟨hends, hsame, -⟩ := hagree 0 _ (by rw [hcalls]; rfl) rfl
    have hcall : s.EndsCall 0 (.returned none) := hends.mpr (by rw [hvalue]; rfl)
    refine ⟨s, hvia.reachable, hpanic hvia, hcall, ?_⟩
    exact (hsame 0 _ (by rw [hstreams]; rfl) rfl rfl).mp hcall
  · cases hseen

/-- A process stops while an object that outlives a stop is in use, and drops its supervisor
on the way out. -/
def stopAndDrop : List (Event ℕ ℕ) :=
  [.supervise .no, .untilStopped 0 false, .stopped 0, .stopAll .stop, .drop, .stopped 0,
    .stopped 0, .stopped 0]

/-- The call has panicked. -/
def Outcome.isPanicked : Outcome O → Bool
  | .panicked => true
  | _ => false

/-- The call panics. -/
theorem until_stopped_panics :
    ∃ s : Site ℕ ℕ, (supervision ℕ ℕ).Reachable s ∧ ∃ k ∈ s.calls, k.outcome = .panicked := by
  obtain ⟨s, hrun, hpanic⟩ := TransitionSystem.exists_run (supervision ℕ ℕ) .new stopAndDrop
    (fun s => s.calls.any fun k => k.outcome.isPanicked) (by decide +kernel)
  refine ⟨s, TransitionSystem.reachable_of_run (.init rfl) hrun, ?_⟩
  obtain ⟨k, hk, hpanicked⟩ := List.any_eq_true.mp hpanic
  refine ⟨k, hk, ?_⟩
  unfold Outcome.isPanicked at hpanicked
  split at hpanicked
  · assumption
  · cases hpanicked

/-! ## Streams yield a prefix -/

/-- The items that polls have yielded. -/
def yielded (polls : List (Polled ι)) : List ι := polls.filterMap fun p => p.result.join

/-- A poll that did not poll the inner stream yielded nothing. -/
theorem yielded_eq {polls : List (Polled ι)}
    (h : ∀ p ∈ polls, p.inner = false → p.result = some none) :
    yielded polls = ((polls.filter Polled.inner).map Polled.result).filterMap Option.join := by
  induction polls with
  | nil => rfl
  | cons p polls ih =>
    have hrest := ih fun q hq => h q (List.mem_cons_of_mem _ hq)
    cases hinner : p.inner with
    | true => cases hjoin : p.result.join <;> simp_all [yielded]
    | false =>
      have hresult := h p List.mem_cons_self hinner
      simp_all [yielded]

/-- What a stream has yielded is what its inner stream has. -/
theorem StoppableStream.Fit.yielded_eq {c : WatchChannel RunState} {st : StoppableStream ι}
    (h : st.Fit c) :
    yielded st.polls = (List.range st.stream.taken).filterMap st.stream.script := by
  have hjoin : ∀ log : List (Option (Option ι)),
      log.filterMap Option.join = (log.filterMap id).filterMap id := by
    intro log
    rw [List.filterMap_filterMap]
    rfl
  rw [Supervisor.yielded_eq h.refused, h.forwarded, hjoin,
    show st.stream.log.filterMap id = _ from h.scripted, List.filterMap_map]
  rfl

/-- **A stream yields a prefix and then stays ended.**  In every run, what a stream has
yielded is, in order, all that has been taken from its inner stream, and so a prefix of what
that yields; a poll that begins in a run state that stops the stream returns `None` without
polling the inner stream; once a poll has done so, all later ones do; as long as the run
state does not stop the stream, every poll returned what the inner stream did; and a poll
that has begun gets through its loop. -/
theorem stoppable_stream_prefix (hr : (supervision ι O).Reachable s) {st : StoppableStream ι}
    (hst : st ∈ s.streams) :
    yielded st.polls = (List.range st.stream.taken).filterMap st.stream.script ∧
    (∀ m, st.stream.taken ≤ m →
      yielded st.polls <+: (List.range m).filterMap st.stream.script) ∧
    (∀ p ∈ st.polls, st.stopOnShutdown.shouldContinue p.since = false →
      p.inner = false ∧ p.result = some none) ∧
    st.polls.Pairwise (fun p q => p.inner = false → q.inner = false ∧ q.result = some none) ∧
    (st.stopOnShutdown.shouldContinue s.channel.value = true →
      st.polls.map Polled.result = st.stream.log) ∧
    ∀ j since, s.streams[j]? = some st → st.stage = .draining since →
      ∃ m ≤ 2, ∃ s' st', (supervision ι O).run s (List.replicate m (.drain j)) = some s' ∧
        s'.streams[j]? = some st' ∧ st'.stage = .drained since := by
  have hfit := (fit_of_reachable hr).streams st hst
  refine ⟨hfit.yielded_eq, ?_, ?_, ?_, ?_, ?_⟩
  · intro m hm
    rw [hfit.yielded_eq]
    obtain ⟨d, rfl⟩ := Nat.exists_eq_add_of_le hm
    rw [List.range_add, List.filterMap_append]
    exact List.prefix_append _ _
  · intro p hp hstop
    have hinner := hfit.stopped p hp hstop
    exact ⟨hinner, hfit.refused p hp hinner⟩
  · refine hfit.order.imp_of_mem ?_
    intro p q _ hq himp hinner
    exact ⟨himp hinner, hfit.refused q hq (himp hinner)⟩
  · intro hgoing
    have hall : st.polls.filter Polled.inner = st.polls := by
      rw [List.filter_eq_self]
      intro p hp
      by_contra hne
      rw [Bool.not_eq_true] at hne
      rw [(hfit.ended ⟨p, hp, hne⟩).1] at hgoing
      cases hgoing
    rw [← hfit.forwarded, hall]
  · intro j since hj hstage
    obtain ⟨m, hm, s', st', hrun, -, hst', hstage', -⟩ := Site.run_drain hj hstage
    exact ⟨m, hm, s', st', hrun, hst', hstage'⟩

/-- A stream over a source of numbers is polled twice, once before and once after a stop. -/
def polledAcrossStop : List (Event ℕ ℕ) :=
  [.superviseStream some .yes, .start 0, .drain 0, .drain 0, .finish 0 true, .stopAll .stop,
    .start 0, .drain 0, .drain 0, .finish 0 true]

/-- It has yielded the first number, and then ended. -/
theorem stoppable_stream_prefix_stopped :
    ∃ (s : Site ℕ ℕ) (st : StoppableStream ℕ), (supervision ℕ ℕ).Reachable s ∧
      st ∈ s.streams ∧ st.polls.length = 2 ∧ yielded st.polls = [0] := by
  obtain ⟨s, hrun, hcheck⟩ := TransitionSystem.exists_run (supervision ℕ ℕ) .new polledAcrossStop
    (fun s => s.streams.any fun st => st.polls.length = 2 ∧ st.stream.taken = 1 ∧
      st.stream.script 0 = some 0) (by decide +kernel)
  have hr := TransitionSystem.reachable_of_run (M := supervision ℕ ℕ) (.init rfl) hrun
  obtain ⟨st, hst, hst'⟩ := List.any_eq_true.mp hcheck
  obtain ⟨hlen, htaken, hscript⟩ := of_decide_eq_true hst'
  obtain ⟨hyielded, -⟩ := stoppable_stream_prefix hr hst
  refine ⟨s, st, hr, hst, hlen, ?_⟩
  rw [hyielded, htaken]
  simp [hscript]

end Supervisor
