/-
# Every call of `upgrade` comes to an end

As long as the child is the only process that has the write end of the ready pipe, nothing in
`executioner.rs` waits without a bound on something that may never come: the child may stay
silent for ever, but `wait_child` kills it after `timeoutMs`, its death ends the ready pipe,
and every join waits for a thread that is on its way to its end.  That it is the only one is
part of the model here, as in all that rests on `Call.stepChild`.  The code does not see to
it: a command that the child starts before it calls `ready` keeps the pipe open after the
child's death, and `wait_ready` waits for that command.  `ReadyPipe` is about this.

* `Call.left` : how many steps the threads of a call have at most before them; every step
  of a thread takes one off, and neither the child nor the clock adds any
  (`Call.act_progress`, `Call.tick_progress`).
* `Call.helper` : what the call is waiting for, which is always something that can happen
  (`Call.helper_pending`).
* `upgrade_ends` : so in every execution in which no thread that can run is held back for
  ever, the clock goes on and a killed child dies, each call that is made ends, whether its
  child answers, stays silent or dies.
* `thread_steps_bounded` : and in a run of any kind the threads of a call take at most
  `Call.init.left 0` steps.
-/
import Ecdysis.ChildProgram
import Ecdysis.Liveness

namespace Executioner

/-! ## What is left to do -/

/-- The steps that the main thread still has to take, and the one of `send_fds` while it has
not been started. -/
def Setup.left : Setup → ℕ
  | .listenerPipe => 15
  | .listenerDup => 14
  | .readyPipe => 13
  | .readyDup => 12
  | .currentDir => 11
  | .spawn => 10
  | .sendThread => 9
  | .waitChildThread => 7
  | .waitReadyThread => 6

/-- The steps that the main thread still has to take, likewise. -/
def Main.left : Main → ℕ
  | .start => 16
  | .setup p => p.left
  | .joinReady => 5
  | .store _ => 4
  | .joinChild _ => 3
  | .joinSend _ => 2
  | .refused | .aborted _ _ | .returned _ | .panicked => 0

/-- The main thread has come to its end. -/
def Main.ended : Main → Bool
  | .refused | .aborted _ _ | .returned _ | .panicked => true
  | _ => false

/-- How often `wait_child` still polls when so much time has passed. -/
def pollsLeft (elapsed : ℕ) : ℕ := (timeoutMs - elapsed + (sleepMs - 1)) / sleepMs

/-- The steps that `wait_child` still has to take, and the events it has to wait for: the
end of its sleep and the death of a child it has killed. -/
def WaitChild.left (now : ℕ) (alive : Bool) : WaitChild → ℕ
  | .idle => 56
  | .entry => 55
  | .test begun => 5 * pollsLeft (now - begun) + 4
  | .sleep begun wake => 5 * pollsLeft (wake - begun) + if wake ≤ now then 7 else 8
  | .poll begun => 5 * pollsLeft (now - begun) + 6
  | .load begun => 5 * pollsLeft (now - begun) + 5
  | .final => 1
  | .kill => 3
  | .wait => if alive then 2 else 1
  | .done _ => 0

/-- The steps that `wait_ready` still has to take. -/
def WaitReady.left : WaitReady → ℕ
  | .idle => 4
  | .reading buf => 3 - buf.length
  | .done _ => 0

/-- The steps that `send_fds` still has to take. -/
def Send.left : Send → ℕ
  | .running => 1
  | .idle | .done _ => 0

/-- The steps that the threads of a call still have to take. -/
def Call.left (now : ℕ) (k : Call) : ℕ :=
  k.main.left + k.waitChild.left now k.child.alive + k.waitReady.left + k.send.left

/-! ## What is waited for -/

/-- Who has to act for a call to go on: one of its threads, the clock, or the system that
carries out a kill. -/
inductive Helper
  | main
  | waitChild
  | waitReady
  | send
  | clock (wake : ℕ)
  | death
  deriving DecidableEq

/-- The action is one by which the helper helps. -/
def Helper.does : Helper → Act → Bool
  | .main, .main | .main, .fail _ => true
  | .waitChild, .waitChild => true
  | .waitReady, .waitReady => true
  | .send, .send _ => true
  | .death, .child .exit => true
  | _, _ => false

/-- The thread has ended. -/
def WaitChild.isDone : WaitChild → Bool
  | .done _ => true
  | _ => false

/-- The thread has ended. -/
def WaitReady.isDone : WaitReady → Bool
  | .done _ => true
  | _ => false

/-- The thread has ended. -/
def Send.isDone : Send → Bool
  | .done _ => true
  | _ => false

/-- What `wait_child` needs to go on. -/
def WaitChild.helper (now : ℕ) (alive : Bool) : WaitChild → Helper
  | .sleep _ wake => if wake ≤ now then .waitChild else .clock wake
  | .wait => if alive then .death else .waitChild
  | _ => .waitChild

/-- What the call needs to go on.  While the main thread waits for `wait_ready`, it is
`wait_child` that makes sure that there will be an answer. -/
def Call.helper (now : ℕ) (k : Call) : Helper :=
  match k.main with
  | .joinReady =>
    if k.waitReady.isDone then .main
    else if k.waitChild.isDone then .waitReady
    else k.waitChild.helper now k.child.alive
  | .joinChild _ =>
    if k.waitChild.isDone then .main else k.waitChild.helper now k.child.alive
  | .joinSend _ => if k.send.isDone then .main else .send
  | _ => .main

/-! ## What can be relied on -/

/-- `wait_child` measures the time from a moment that has passed. -/
def WaitChild.Timely (now : ℕ) : WaitChild → Prop
  | .test begun | .sleep begun _ | .poll begun | .load begun => begun ≤ now
  | _ => True

/-- What the progress of a call rests on: its threads are in step and have been started,
the beginning of its time-out has passed, a child that is gone has closed the only write end
of the ready pipe, and a child that is being waited for has been killed. -/
structure Call.Attended (now : ℕ) (k : Call) : Prop where
  coherent : k.Coherent
  started : k.Started
  timely : k.waitChild.Timely now
  closed : k.child.alive = false → k.ready.writerOpen = false
  killed : k.waitChild = .wait → k.child ≠ .running

variable {g g' : Shared} {k k' : Call} {now now' : ℕ}

theorem Call.attended_init : Call.init.Attended now :=
  ⟨Call.coherent_init, trivial, trivial, fun _ => rfl, by simp [Call.init]⟩

/-- Time passes. -/
theorem Call.Attended.tick (hk : k.Attended now) (hle : now ≤ now') : k.Attended now' := by
  refine ⟨hk.coherent, hk.started, ?_, hk.closed, hk.killed⟩
  have htimely := hk.timely
  cases hc : k.waitChild with
  | test begun | sleep begun wake | poll begun | load begun =>
    rw [hc] at htimely
    exact le_trans htimely hle
  | _ => trivial

/-- A step of `wait_child` keeps to the clock. -/
theorem WaitChild.Timely.step (hk : k.waitChild.Timely g.now)
    (h : k.stepWaitChild g = some k') : k'.waitChild.Timely g.now := by
  have hprocWait : ∀ w : WaitChild, w.Timely g.now → (k.procWait w).waitChild.Timely g.now := by
    intro w hw
    unfold Call.procWait
    split
    · exact hw
    · trivial
  unfold Call.stepWaitChild at h
  cases hc : k.waitChild with
  | poll begun | final =>
    simp only [hc, Option.some.injEq] at h
    rw [hc] at hk
    exact h ▸ hprocWait _ hk
  | entry =>
    simp only [hc, Option.some.injEq] at h
    subst h
    exact le_refl _
  | test begun | load begun | sleep begun wake =>
    simp only [hc] at h
    rw [hc] at hk
    split at h <;> cases h
    all_goals first | exact hk | trivial
  | kill =>
    simp only [hc, Option.some.injEq] at h
    subst h
    trivial
  | wait =>
    simp only [hc] at h
    split at h <;> cases h
    trivial
  | idle | done res => simp [hc] at h

/-- A step of `wait_child` that arrives at the final `wait` has killed the child. -/
theorem Call.killed_stepWaitChild (h : k.stepWaitChild g = some k')
    (hwait : k'.waitChild = .wait) : k'.child ≠ .running := by
  unfold Call.stepWaitChild at h
  cases hc : k.waitChild with
  | kill =>
    simp only [hc, Option.some.injEq] at h
    subst h
    dsimp only
    split
    · simp
    · assumption
  | poll begun | final =>
    simp only [hc, Option.some.injEq, Call.procWait] at h
    split at h <;> subst h <;> simp at hwait
  | entry =>
    simp only [hc, Option.some.injEq] at h
    subst h
    simp at hwait
  | test begun | load begun | sleep begun wake | wait =>
    simp only [hc] at h
    split at h <;> cases h
    all_goals simp at hwait
  | idle | done res => simp [hc] at h

/-- The main thread has not started `wait_child` when it spawns the child. -/
theorem Call.MainFacts.idle_of_spawn (hm : k.MainFacts) (hspawn : k.main = .setup .spawn) :
    k.waitChild = .idle := by
  unfold Call.MainFacts at hm
  rw [hspawn] at hm
  exact hm.2.1 (by simp)

/-- A step of the main thread moves `wait_child` only to start it, and the child only to
spawn it. -/
theorem Call.stepMain_moves (h : k.stepMain g = some (g', k')) :
    (k'.waitChild = k.waitChild ∨ k.main = .setup .waitChildThread ∧ k'.waitChild = .entry) ∧
      (k'.child = k.child ∧ k'.ready = k.ready ∨
        k.main = .setup .spawn ∧ k'.child = .running ∧ k'.ready.writerOpen = true) := by
  unfold Call.stepMain at h
  cases hm : k.main with
  | setup p =>
    simp only [hm, Option.some.injEq, Prod.mk.injEq] at h
    obtain ⟨-, rfl⟩ := h
    cases p <;> simp [Call.setupDone]
  | start | joinReady | joinChild res | joinSend res =>
    simp only [hm] at h
    split at h <;> cases h <;> exact ⟨.inl rfl, .inl ⟨rfl, rfl⟩⟩
  | store res =>
    simp only [hm] at h
    cases h
    exact ⟨.inl rfl, .inl ⟨rfl, rfl⟩⟩
  | _ => simp [hm] at h

/-- **One step of a call** keeps what its progress rests on. -/
theorem Call.Attended.act {a : Act} (hk : k.Attended g.now)
    (hown : k.main.owns = true → g.upgrading = true) (h : k.act g a = some (g', k')) :
    k'.Attended g.now := by
  have hcoherent := hk.coherent.act hown h
  have hstarted := hk.started.act h
  rcases Call.act_cases h with
    ⟨-, hs⟩ | ⟨-, ⟨msg, -, hs⟩ | ⟨-, hs⟩ | ⟨-, hs⟩ | ⟨err, -, hs⟩ | ⟨x, -, hs⟩⟩
  · obtain ⟨hwatch, hchild⟩ := Call.stepMain_moves hs
    refine ⟨hcoherent, hstarted, ?_, ?_, ?_⟩
    · rcases hwatch with heq | ⟨-, heq⟩
      · rw [heq]
        exact hk.timely
      · rw [heq]
        trivial
    · rcases hchild with ⟨hc, hr⟩ | ⟨-, hc, -⟩
      · rw [hc, hr]
        exact hk.closed
      · rw [hc]
        simp [Child.alive]
    · intro hwait
      rcases hwatch with heq | ⟨-, heq⟩
      · rcases hchild with ⟨hc, -⟩ | ⟨hspawn, -, -⟩
        · rw [hc]
          exact hk.killed (heq ▸ hwait)
        · rw [heq, hk.coherent.main.idle_of_spawn hspawn] at hwait
          cases hwait
      · rw [heq] at hwait
        cases hwait
  · unfold Call.stepFail at hs
    split at hs <;> cases hs
    exact ⟨hcoherent, hstarted, hk.timely, hk.closed, hk.killed⟩
  · obtain ⟨halive, -, -, -, hready⟩ := Call.stepWaitChild_eq_some hs
    refine ⟨hcoherent, hstarted, hk.timely.step hs, ?_, Call.killed_stepWaitChild hs⟩
    rw [halive, hready]
    exact hk.closed
  · have hopen := (Call.sameEnds_stepWaitReady hs).writerOpen
    obtain ⟨hchild, -, -⟩ := Call.workers_stepWaitReady hs
    have hwatch : k'.waitChild = k.waitChild := by
      unfold Call.stepWaitReady at hs
      split at hs
      · split at hs
        · cases hs
          rfl
        · split at hs <;> cases hs
          rfl
      all_goals cases hs
    exact ⟨hcoherent, hstarted, hwatch ▸ hk.timely, by rw [hchild, hopen]; exact hk.closed,
      by rw [hwatch, hchild]; exact hk.killed⟩
  · unfold Call.stepSend at hs
    split at hs <;> cases hs
    exact ⟨hcoherent, hstarted, hk.timely, hk.closed, hk.killed⟩
  · unfold Call.stepChild at hs
    split at hs
    · rename_i halive
      cases x with
      | write b =>
        simp only at hs
        split at hs <;> cases hs
        exact ⟨hcoherent, hstarted, hk.timely, by simp [halive], hk.killed⟩
      | close =>
        cases hs
        exact ⟨hcoherent, hstarted, hk.timely, fun _ => rfl, hk.killed⟩
      | exit =>
        cases hs
        exact ⟨hcoherent, hstarted, hk.timely, fun _ => rfl, fun _ => by simp⟩
    · cases hs

/-! ## Steps take something off -/

/-- The number of polls to come goes down by one with each pause. -/
theorem pollsLeft_sleep {x : ℕ} (hx : x < timeoutMs) :
    pollsLeft (x + sleepMs) + 1 = pollsLeft x := by
  simp only [pollsLeft, timeoutMs, sleepMs] at hx ⊢
  omega

/-- It does not go up in time. -/
theorem pollsLeft_le {x y : ℕ} (h : x ≤ y) : pollsLeft y ≤ pollsLeft x := by
  simp only [pollsLeft, timeoutMs, sleepMs]
  omega

theorem Call.left_stepMain (h : k.stepMain g = some (g', k')) (hk : k.Coherent) :
    k'.left now < k.left now := by
  unfold Call.stepMain at h
  cases hm : k.main with
  | start =>
    simp only [hm] at h
    split at h <;> cases h <;> simp [Call.left, Main.left, Setup.left, hm]
  | setup p =>
    simp only [hm, Option.some.injEq, Prod.mk.injEq] at h
    obtain ⟨-, rfl⟩ := h
    have hmain := hk.main
    unfold Call.MainFacts at hmain
    rw [hm] at hmain
    obtain ⟨hready, hwatch, -⟩ := hmain
    cases p with
    | spawn =>
      simp [Call.left, Call.setupDone, hm, Main.left, Setup.left, hwatch (by simp),
        WaitChild.left]
    | sendThread =>
      simp only [Call.left, Call.setupDone, hm, Main.left, Setup.left, Send.left]
      omega
    | waitChildThread =>
      simp [Call.left, Call.setupDone, hm, Main.left, Setup.left, hwatch, WaitChild.left]
    | waitReadyThread =>
      simp [Call.left, Call.setupDone, hm, Main.left, Setup.left, hready, WaitReady.left]
    | _ => simp [Call.left, Call.setupDone, hm, Main.left, Setup.left]
  | joinReady | joinChild res | joinSend res =>
    simp only [hm] at h
    split at h <;> cases h <;> simp [Call.left, Main.left, hm]
  | store res =>
    simp only [hm] at h
    cases h
    simp [Call.left, Main.left, hm]
  | _ => simp [hm] at h

theorem Call.left_stepFail {msg : String} (h : k.stepFail msg = some k') :
    k'.left now < k.left now := by
  unfold Call.stepFail at h
  split at h <;> cases h
  rename_i p hm
  cases p <;> simp [Call.left, Main.left, Setup.left, Setup.failed, hm]

/-- A poll leads to the thread's next point or to its end. -/
theorem Call.left_procWait {w : WaitChild}
    (hw : w.left now k.child.alive < k.waitChild.left now k.child.alive) :
    (k.procWait w).left now < k.left now := by
  unfold Call.procWait Call.left
  split
  · simpa using hw
  · show k.main.left + 0 + k.waitReady.left + k.send.left < _
    omega

theorem Call.left_stepWaitChild (htimely : k.waitChild.Timely g.now)
    (h : k.stepWaitChild g = some k') : k'.left g.now < k.left g.now := by
  unfold Call.stepWaitChild at h
  cases hc : k.waitChild with
  | poll begun =>
    simp only [hc, Option.some.injEq] at h
    refine h ▸ Call.left_procWait ?_
    simp only [hc, WaitChild.left]
    omega
  | final =>
    simp only [hc, Option.some.injEq] at h
    refine h ▸ Call.left_procWait ?_
    simp [hc, WaitChild.left]
  | entry =>
    simp only [hc, Option.some.injEq] at h
    subst h
    simp [Call.left, hc, WaitChild.left, pollsLeft, timeoutMs, sleepMs]
  | test begun =>
    simp only [hc] at h
    rw [hc] at htimely
    split at h <;> cases h
    · rename_i hlt
      have hle : begun ≤ g.now := htimely
      have hsub : g.now + sleepMs - begun = g.now - begun + sleepMs := by omega
      have hpolls := pollsLeft_sleep hlt
      have hnot : ¬ g.now + sleepMs ≤ g.now := by simp [sleepMs]
      simp only [Call.left, hc, WaitChild.left, hsub, hnot, if_false]
      omega
    · simp [Call.left, hc, WaitChild.left]
  | sleep begun wake =>
    simp only [hc] at h
    split at h <;> cases h
    rename_i hwake
    have hpolls := pollsLeft_le (Nat.sub_le_sub_right hwake begun)
    simp only [Call.left, hc, WaitChild.left, hwake, if_true]
    omega
  | load begun =>
    simp only [hc] at h
    split at h <;> cases h <;> simp only [Call.left, hc, WaitChild.left] <;> omega
  | kill =>
    simp only [hc, Option.some.injEq] at h
    subst h
    simp only [Call.left, hc, WaitChild.left]
    repeat' split
    all_goals omega
  | wait =>
    simp only [hc] at h
    split at h <;> cases h
    simp only [Call.left, hc, WaitChild.left]
    split <;> omega
  | idle | done res => simp [hc] at h

theorem Call.left_stepWaitReady (hk : k.Coherent) (h : k.stepWaitReady = some k') :
    k'.left now < k.left now := by
  have hread := hk.read
  unfold Call.stepWaitReady at h
  split at h
  · rename_i buf hbuf
    rw [hbuf] at hread
    have hlen : buf.length < 2 := hread.2
    split at h
    · cases h
      simp only [Call.left, hbuf]
      split
      · simp only [WaitReady.left]
        omega
      · simp only [WaitReady.left, List.length_append, List.length_singleton]
        omega
    · split at h <;> cases h
      simp only [Call.left, hbuf, WaitReady.left]
      omega
  all_goals cases h

theorem Call.left_stepSend {err : Option String} (h : k.stepSend err = some k') :
    k'.left now < k.left now := by
  unfold Call.stepSend at h
  split at h <;> cases h
  rename_i hsend
  simp [Call.left, hsend, Send.left]

/-- A step of the child takes nothing back, and moves nothing that is waited for, unless it
is the death of a child that has been killed. -/
theorem Call.left_stepChild {a : ChildAct} (h : k.stepChild a = some k') :
    k'.left now < k.left now ∨
      k'.left now = k.left now ∧ k'.helper now = k.helper now ∧
        (k.helper now).does (.child a) = false := by
  unfold Call.stepChild at h
  split at h
  · rename_i halive
    cases a with
    | write b =>
      simp only at h
      split at h <;> cases h
      exact .inr ⟨rfl, rfl, by cases k.helper now <;> rfl⟩
    | close =>
      cases h
      exact .inr ⟨rfl, rfl, by cases k.helper now <;> rfl⟩
    | exit =>
      cases h
      by_cases hwait : k.waitChild = .wait
      · left
        have hdead : Child.dead.alive = false := rfl
        simp [Call.left, hwait, WaitChild.left, halive, hdead]
      · right
        have hleft : ∀ alive, k.waitChild.left now alive = k.waitChild.left now true := by
          intro alive
          cases hc : k.waitChild <;> first | rfl | exact absurd hc hwait
        have hhelper : ∀ alive, k.waitChild.helper now alive = k.waitChild.helper now true ∧
            k.waitChild.helper now alive ≠ .death := by
          intro alive
          cases hc : k.waitChild with
          | wait => exact absurd hc hwait
          | sleep begun wake =>
            refine ⟨rfl, ?_⟩
            unfold WaitChild.helper
            dsimp only
            split <;> simp
          | _ => exact ⟨rfl, by simp [WaitChild.helper]⟩
        refine ⟨?_, ?_, ?_⟩
        · simp only [Call.left, hleft Child.dead.alive, hleft k.child.alive]
        · unfold Call.helper
          dsimp only
          rw [(hhelper Child.dead.alive).1, (hhelper k.child.alive).1]
        · have hne : k.helper now ≠ .death := by
            unfold Call.helper
            split
            · split
              · simp
              · split
                · simp
                · exact (hhelper _).2
            · split
              · simp
              · exact (hhelper _).2
            · split <;> simp
            · simp
          cases hhelp : k.helper now <;> first | rfl | exact absurd hhelp hne
  · cases h

/-- **Progress**: what a step of a call does to what is left. -/
theorem Call.act_progress {a : Act} (hk : k.Attended g.now) (h : k.act g a = some (g', k')) :
    g'.now = g.now ∧
      (k'.left g.now < k.left g.now ∨
        (∃ x, a = .child x) ∧ k'.left g.now = k.left g.now ∧
          k'.helper g.now = k.helper g.now ∧ (k.helper g.now).does a = false) := by
  rcases Call.act_cases h with
    ⟨-, hs⟩ | ⟨rfl, ⟨msg, -, hs⟩ | ⟨-, hs⟩ | ⟨-, hs⟩ | ⟨err, -, hs⟩ | ⟨x, rfl, hs⟩⟩
  · refine ⟨?_, .inl (Call.left_stepMain hs hk.coherent)⟩
    rcases Call.act_flag h with ⟨-, -, -, rfl⟩ | ⟨res, -, -, rfl⟩ | ⟨rfl, -⟩ <;> rfl
  · exact ⟨rfl, .inl (Call.left_stepFail hs)⟩
  · exact ⟨rfl, .inl (Call.left_stepWaitChild hk.timely hs)⟩
  · exact ⟨rfl, .inl (Call.left_stepWaitReady hk.coherent hs)⟩
  · exact ⟨rfl, .inl (Call.left_stepSend hs)⟩
  · exact ⟨rfl, (Call.left_stepChild hs).imp_right fun hsame => ⟨⟨x, rfl⟩, hsame⟩⟩

/-- The passing of time ends a sleep, and changes nothing else that matters. -/
theorem WaitChild.tick_progress (alive : Bool) (w : WaitChild) (hle : now ≤ now') :
    w.left now' alive < w.left now alive ∨
      w.left now' alive = w.left now alive ∧ w.helper now' alive = w.helper now alive ∧
        ∀ wake, w.helper now alive = .clock wake → ¬ wake ≤ now' := by
  cases w with
  | sleep begun wake =>
    by_cases hdue : wake ≤ now
    · exact .inr ⟨by simp [WaitChild.left, hdue, hdue.trans hle],
        by simp [WaitChild.helper, hdue, hdue.trans hle], by simp [WaitChild.helper, hdue]⟩
    · by_cases hdue' : wake ≤ now'
      · exact .inl (by simp [WaitChild.left, hdue, hdue'])
      · refine .inr ⟨by simp [WaitChild.left, hdue, hdue'],
          by simp [WaitChild.helper, hdue, hdue'], fun w hw => ?_⟩
        simp only [WaitChild.helper, hdue, if_false, Helper.clock.injEq] at hw
        exact hw ▸ hdue'
  | test begun | poll begun | load begun =>
    have hpolls := pollsLeft_le (Nat.sub_le_sub_right hle begun)
    rcases lt_or_eq_of_le hpolls with hlt | heq
    · left
      simp only [WaitChild.left]
      omega
    · exact .inr ⟨by simp only [WaitChild.left, heq], rfl, by simp [WaitChild.helper]⟩
  | wait =>
    refine .inr ⟨rfl, rfl, fun wake hw => ?_⟩
    unfold WaitChild.helper at hw
    dsimp only at hw
    split at hw <;> cases hw
  | idle | entry | final | kill | done res => exact .inr ⟨rfl, rfl, by simp [WaitChild.helper]⟩

/-- **Progress**: what the passing of time does to what is left. -/
theorem Call.tick_progress (k : Call) (hle : now ≤ now') :
    k.left now' < k.left now ∨
      k.left now' = k.left now ∧ k.helper now' = k.helper now ∧
        ∀ wake, k.helper now = .clock wake → ¬ wake ≤ now' := by
  rcases WaitChild.tick_progress k.child.alive k.waitChild hle with hlt | ⟨heq, hhelp, hclock⟩
  · left
    unfold Call.left
    omega
  · right
    refine ⟨by simp only [Call.left, heq], by simp only [Call.helper, hhelp], fun wake hw => ?_⟩
    refine hclock wake ?_
    unfold Call.helper at hw
    split at hw
    · split at hw
      · cases hw
      · split at hw
        · cases hw
        · exact hw
    · split at hw
      · cases hw
      · exact hw
    · split at hw <;> cases hw
    · cases hw

/-! ## Nothing is waited for in vain -/

/-- The helper can help, or will. -/
def Call.Pending (g : Shared) (k : Call) : Helper → Prop
  | .main => (k.stepMain g).isSome = true
  | .waitChild => (k.stepWaitChild g).isSome = true
  | .waitReady => k.stepWaitReady.isSome = true
  | .send => k.send = .running
  | .clock wake => ¬ wake ≤ g.now
  | .death => k.child = .signalled

/-- `wait_child` can go on, or it waits for the clock or for the death of a killed child. -/
theorem Call.watch_pending (hk : k.Attended g.now) (hidle : k.waitChild ≠ .idle)
    (hdone : k.waitChild.isDone = false) :
    k.Pending g (k.waitChild.helper g.now k.child.alive) := by
  have hkilled := hk.killed
  cases hc : k.waitChild with
  | idle => exact absurd hc hidle
  | done res => simp [hc, WaitChild.isDone] at hdone
  | sleep begun wake =>
    by_cases hdue : wake ≤ g.now
    · simp [WaitChild.helper, Call.Pending, hdue, Call.stepWaitChild, hc]
    · simp [WaitChild.helper, Call.Pending, hdue]
  | wait =>
    have hnot := hkilled hc
    by_cases halive : k.child.alive = true
    · simp only [WaitChild.helper, halive, if_true, Call.Pending]
      cases hchild : k.child <;> simp_all [Child.alive]
    · simp [WaitChild.helper, Call.Pending, Call.stepWaitChild, hc, halive]
  | test begun | load begun =>
    simp only [WaitChild.helper, Call.Pending, Call.stepWaitChild, hc]
    split <;> rfl
  | entry | poll begun | final | kill =>
    simp [WaitChild.helper, Call.Pending, Call.stepWaitChild, hc]

/-- When `wait_child` has ended before the flag was stored, the ready pipe has ended too. -/
theorem Call.readable_of_joinReady (hk : k.Attended now) (hm : k.main = .joinReady)
    (hdone : k.waitChild.isDone = true) (hready : k.waitReady.isDone = false) :
    k.stepWaitReady.isSome = true := by
  have hstarted := hk.started
  unfold Call.Started at hstarted
  rw [hm] at hstarted
  obtain ⟨-, -, hread⟩ := hstarted
  have hgone : k.child.alive = false := by
    cases hc : k.waitChild with
    | done res =>
      rcases res with e | ⟨⟩
      · have hreaped := hk.coherent.watch
        rw [hc] at hreaped
        have hchild : k.child = .reaped := hreaped
        rw [hchild]
        rfl
      · have hstored := hk.coherent.cleared (.inr hc)
        rw [hm] at hstored
        cases hstored
    | _ => simp [hc, WaitChild.isDone] at hdone
  have hclosed := hk.closed hgone
  cases hr : k.waitReady with
  | idle => exact absurd hr hread
  | done res => simp [hr, WaitReady.isDone] at hready
  | reading buf =>
    simp only [Call.stepWaitReady, hr]
    split
    · rfl
    · simp [hclosed]

/-- **Nothing is waited for in vain**: what a call that has not ended needs to go on is
possible. -/
theorem Call.helper_pending (hk : k.Attended g.now) (hend : k.main.ended = false) :
    k.Pending g (k.helper g.now) := by
  have hstarted := hk.started
  unfold Call.Started at hstarted
  cases hm : k.main with
  | start =>
    simp only [Call.helper, Call.Pending, Call.stepMain, hm]
    split <;> rfl
  | refused | aborted p msg | returned res | panicked => simp [hm, Main.ended] at hend
  | setup p => simp [Call.helper, Call.Pending, Call.stepMain, hm]
  | store res => simp [Call.helper, Call.Pending, Call.stepMain, hm]
  | joinReady =>
    rw [hm] at hstarted
    simp only [Call.helper, hm]
    cases hready : k.waitReady.isDone with
    | true =>
      cases hr : k.waitReady with
      | done res => simp [Call.Pending, Call.stepMain, hm, hr]
      | _ => simp [hr, WaitReady.isDone] at hready
    | false =>
      cases hdone : k.waitChild.isDone with
      | true => exact Call.readable_of_joinReady hk hm hdone hready
      | false => exact Call.watch_pending hk hstarted.2.1 hdone
  | joinChild res =>
    rw [hm] at hstarted
    simp only [Call.helper, hm]
    cases hdone : k.waitChild.isDone with
    | true =>
      cases hc : k.waitChild with
      | done res => rcases res with e | ⟨⟩ <;> simp [Call.Pending, Call.stepMain, hm, hc]
      | _ => simp [hc, WaitChild.isDone] at hdone
    | false => exact Call.watch_pending hk hstarted.2.1 hdone
  | joinSend res =>
    rw [hm] at hstarted
    simp only [Call.helper, hm]
    cases hs : k.send with
    | idle => exact absurd hs hstarted.1
    | running => simp [Send.isDone, Call.Pending, hs]
    | done r => simp [Send.isDone, Call.Pending, Call.stepMain, hm, hs]

/-- `send_fds` is waited for at the end only. -/
theorem Call.joinSend_of_helper (h : k.helper now = .send) : ∃ res, k.main = .joinSend res := by
  have hwatch : ∀ (w : WaitChild) (alive : Bool), w.helper now alive ≠ .send := by
    intro w alive
    cases w with
    | sleep begun wake =>
      unfold WaitChild.helper
      dsimp only
      split <;> simp
    | wait =>
      unfold WaitChild.helper
      dsimp only
      split <;> simp
    | _ => simp [WaitChild.helper]
  unfold Call.helper at h
  split at h
  · split at h
    · cases h
    · split at h
      · cases h
      · exact absurd h (hwatch _ _)
  · split at h
    · cases h
    · exact absurd h (hwatch _ _)
  · rename_i res hm
    exact ⟨res, hm⟩
  · cases h

/-- An action of the helper is possible while it is pending, unless it is the clock. -/
theorem Call.act_of_pending {h : Helper} (hp : k.Pending g h) (hclock : ∀ wake, h ≠ .clock wake) :
    ∃ a, h.does a = true ∧ (k.act g a).isSome = true := by
  cases h with
  | main => exact ⟨.main, rfl, hp⟩
  | waitChild => exact ⟨.waitChild, rfl, by simpa [Call.act, Call.Pending] using hp⟩
  | waitReady => exact ⟨.waitReady, rfl, by simpa [Call.act, Call.Pending] using hp⟩
  | send =>
    have hsend : k.send = .running := hp
    exact ⟨.send none, rfl, by simp [Call.act, Call.stepSend, hsend]⟩
  | clock wake => exact absurd rfl (hclock wake)
  | death =>
    have hchild : k.child = .signalled := hp
    exact ⟨.child .exit, rfl, by simp [Call.act, Call.stepChild, hchild, Child.alive]⟩

/-- Nothing is left to do for the call. -/
def Call.settled (k : Call) : Bool :=
  k.main.ended && k.waitChild.isDone && k.waitReady.isDone && k.send.isDone &&
    k.child ≠ .signalled

/-- In a call for which nothing is left to do, nothing is pending but the clock. -/
theorem Call.not_pending_of_settled {h : Helper} (hk : k.settled = true)
    (hclock : ∀ wake, h ≠ .clock wake) : ¬ k.Pending g h := by
  simp only [Call.settled, Bool.and_eq_true, decide_eq_true_eq] at hk
  obtain ⟨⟨⟨⟨hmain, hwatch⟩, hready⟩, hsend⟩, hchild⟩ := hk
  intro hp
  cases h with
  | clock wake => exact hclock wake rfl
  | main =>
    have hp : (k.stepMain g).isSome = true := hp
    cases hm : k.main <;> simp_all [Call.stepMain, Main.ended]
  | waitChild =>
    have hp : (k.stepWaitChild g).isSome = true := hp
    unfold Call.stepWaitChild at hp
    cases hc : k.waitChild <;> simp_all [WaitChild.isDone]
  | waitReady =>
    have hp : k.stepWaitReady.isSome = true := hp
    unfold Call.stepWaitReady at hp
    cases hc : k.waitReady <;> simp_all [WaitReady.isDone]
  | send =>
    have hp : k.send = .running := hp
    simp [hp, Send.isDone] at hsend
  | death => exact hchild hp

/-! ## Executions -/

/-- What every call is attended by, in every state of every run. -/
theorem attended_of_reachable {s : Sys} (hr : system.Reachable s) (c : ℕ) :
    (s.comp c).Attended s.shared.now := by
  have hI : Interleaving.Holds (fun g k => Call.Attended g.now k) (fun _ _ => True) s := by
    refine Interleaving.invariant (P := calls) (G := fun _ _ => True) (fun _ _ _ => trivial)
      Call.attended_init trivial ?_ ?_ ?_ hr
    · intro s i a g k hs hI _ hact
      rw [(Call.act_progress (hI.1 i) hact).1]
      exact (hI.1 i).act (fun hown => upgrading_of_owns hs hown) hact
    · intro s i a g k j hs hI _ hact _
      rw [(Call.act_progress (hI.1 i) hact).1]
      exact ⟨hI.1 j, trivial⟩
    · rintro g ms g' k hk henv
      cases henv
      exact hk.tick (by simp)
  exact hI.1 c

/-- A call that has begun has begun for good. -/
theorem Call.begun_act {a : Act} (hk : k.main ≠ .start) (h : k.act g a = some (g', k')) :
    k'.main ≠ .start := by
  rcases Call.act_main_cases h with ⟨-, hs⟩ | ⟨-, msg, -, hs⟩ | ⟨-, hmain⟩
  · unfold Call.stepMain at hs
    cases hm : k.main with
    | start => exact absurd hm hk
    | setup p =>
      simp only [hm, Option.some.injEq, Prod.mk.injEq] at hs
      obtain ⟨-, rfl⟩ := hs
      cases p <;> simp [Call.setupDone]
    | store res =>
      simp only [hm] at hs
      cases hs
      simp
    | joinReady | joinChild res | joinSend res =>
      simp only [hm] at hs
      split at hs <;> cases hs <;> simp
    | _ => simp [hm] at hs
  · unfold Call.stepFail at hs
    split at hs <;> cases hs
    rename_i p _
    cases p <;> simp [Setup.failed]
  · rw [hmain]
    exact hk

/-- A call that has ended has ended for good. -/
theorem Call.ended_act {a : Act} (hk : k.main.ended = true) (h : k.act g a = some (g', k')) :
    k'.main.ended = true := by
  rcases Call.act_main_cases h with ⟨-, hs⟩ | ⟨-, msg, -, hs⟩ | ⟨-, hmain⟩
  · unfold Call.stepMain at hs
    split at hs <;> simp_all [Main.ended]
  · unfold Call.stepFail at hs
    split at hs <;> simp_all [Main.ended]
  · rw [hmain]
    exact hk

/-- There is never more left than a bound. -/
theorem Call.left_le (k : Call) (now : ℕ) : k.left now ≤ 79 := by
  have hpolls : ∀ x, pollsLeft x ≤ 10 := by
    intro x
    simp only [pollsLeft, timeoutMs, sleepMs]
    omega
  have hmain : k.main.left ≤ 16 := by
    cases k.main with
    | setup p => cases p <;> simp [Main.left, Setup.left]
    | _ => simp [Main.left]
  have hwatch : k.waitChild.left now k.child.alive ≤ 58 := by
    cases k.waitChild with
    | test begun | poll begun | load begun =>
      have := hpolls (now - begun)
      simp only [WaitChild.left]
      omega
    | sleep begun wake =>
      have := hpolls (wake - begun)
      simp only [WaitChild.left]
      split <;> omega
    | wait =>
      simp only [WaitChild.left]
      split <;> omega
    | _ => simp [WaitChild.left]
  have hready : k.waitReady.left ≤ 4 := by
    cases k.waitReady with
    | reading buf =>
      simp only [WaitReady.left]
      omega
    | _ => simp [WaitReady.left]
  have hsend : k.send.left ≤ 1 := by cases k.send <;> simp [Send.left]
  unfold Call.left
  omega

/-- What has to happen for call `c` to go on, once it has been made: a thread of it that can
run is not held back for ever, a killed child dies, the clock goes on. -/
def duty (c : ℕ) : Helper → TransitionSystem.Obligation Sys Event
  | .clock wake => .reach (fun _ => True) fun s => wake ≤ s.shared.now
  | h => .task system (fun s => (s.comp c).main ≠ .start ∧ (s.comp c).Pending s.shared h) fun e =>
      ∃ a, e = .act c a ∧ h.does a = true

/-- The duty that a call relies on is pending. -/
theorem duty_pending {s : Sys} {c : ℕ} {h : Helper} (hbegun : (s.comp c).main ≠ .start)
    (hp : (s.comp c).Pending s.shared h) : (duty c h).pending s := by
  have htask : (∀ wake, h ≠ .clock wake) →
      (TransitionSystem.Obligation.task system
        (fun s => (s.comp c).main ≠ .start ∧ (s.comp c).Pending s.shared h) fun e =>
          ∃ a, e = .act c a ∧ h.does a = true).pending s := by
    intro hclock
    obtain ⟨a, ha, hact⟩ := Call.act_of_pending hp hclock
    refine ⟨⟨hbegun, hp⟩, .act c a, ⟨a, rfl, ha⟩, ?_⟩
    simpa [system, Interleaving.system, Interleaving.step, calls] using hact
  cases h with
  | clock wake => trivial
  | main | waitChild | waitReady | send | death => exact htask (by simp)

/-- Nothing that is still pending is met by doing nothing. -/
theorem duty_not_idle {s : Sys} {c : ℕ} {h : Helper} (hp : (s.comp c).Pending s.shared h) :
    ¬ (duty c h).met s none s := by
  cases h with
  | clock wake => exact hp
  | main | waitChild | waitReady | send | death =>
    rintro ⟨e, he, -⟩
    cases he

/-- What a step of call `c` with another action meets. -/
theorem duty_not_met {s s' : Sys} {c : ℕ} {h : Helper} {e : Event}
    (htask : ∀ a, e = .act c a → h.does a = false)
    (hclock : ∀ wake, h = .clock wake → ¬ wake ≤ s'.shared.now) :
    ¬ (duty c h).met s (some e) s' := by
  cases h with
  | clock wake => exact hclock wake rfl
  | main | waitChild | waitReady | send | death =>
    rintro ⟨e', he', a, ha, hdoes⟩
    cases he'
    rw [htask a ha] at hdoes
    cases hdoes

/-- **Every step of the system is progress** of each call that has not ended: it takes
something off what is left, or it is not what the call waits for. -/
theorem call_progress {s s' : Sys} {c : ℕ} {e : Event} (hr : system.Reachable s)
    (hend : (s.comp c).main.ended = false) (h : system.step s e = some s') :
    (s'.comp c).left s'.shared.now < (s.comp c).left s.shared.now ∨
    (s'.comp c).left s'.shared.now = (s.comp c).left s.shared.now ∧
      (s'.comp c).helper s'.shared.now = (s.comp c).helper s.shared.now ∧
      (∀ a, e = .act c a → ((s.comp c).helper s.shared.now).does a = false) ∧
      ∀ wake, (s.comp c).helper s.shared.now = .clock wake → ¬ wake ≤ s'.shared.now := by
  have hattended := attended_of_reachable hr
  have hpending := Call.helper_pending (hattended c) hend
  have hclock : ∀ wake, (s.comp c).helper s.shared.now = .clock wake →
      ¬ wake ≤ s.shared.now := by
    intro wake hwake
    rw [hwake] at hpending
    exact hpending
  rcases step_cases h with ⟨d, a, g', k', rfl, hact, rfl⟩ | ⟨ms, rfl, rfl⟩
  · obtain ⟨hnow, hprogress⟩ := Call.act_progress (hattended d) hact
    by_cases hdc : c = d
    · subst hdc
      simp only [Function.update_self, hnow]
      refine hprogress.imp id ?_
      rintro ⟨-, hleft, hhelp, hdoes⟩
      refine ⟨hleft, hhelp, fun a' ha' => ?_, hclock⟩
      cases ha'
      exact hdoes
    · simp only [Function.update_of_ne hdc, hnow]
      refine .inr ⟨trivial, trivial, fun a' ha' => ?_, hclock⟩
      cases ha'
      exact absurd rfl hdc
  · refine ((s.comp c).tick_progress (Nat.le_add_right s.shared.now ms)).imp id ?_
    rintro ⟨hleft, hhelp, hclock'⟩
    refine ⟨hleft, hhelp, fun a' ha' => ?_, hclock'⟩
    cases ha'

/-- What every action keeps of a call, every step keeps. -/
theorem kept_step {P : Call → Prop} (hact : ∀ {g g' : Shared} {k k' : Call} {a : Act}, P k →
    k.act g a = some (g', k') → P k') {s s' : Sys} {c : ℕ} {e : Event} (hP : P (s.comp c))
    (h : system.step s e = some s') : P (s'.comp c) := by
  rcases step_cases h with ⟨d, a, g', k', rfl, hs, rfl⟩ | ⟨ms, rfl, rfl⟩
  · by_cases hdc : c = d
    · subst hdc
      simp only [Function.update_self]
      exact hact hP hs
    · simpa only [Function.update_of_ne hdc] using hP
  · exact hP

/-- **Every call of `upgrade` ends**, in every execution in which what it relies on
happens; nobody but its child gets the write end of its ready pipe. -/
theorem upgrade_ends (x : system.Execution) (c : ℕ) (hfair : ∀ h, x.Meets (duty c h)) {n : ℕ}
    (hbegun : ((x.state n).comp c).main ≠ .start) :
    ∃ m, n ≤ m ∧ ((x.state m).comp c).main.ended = true := by
  refine x.leadsTo (P := fun s : Sys => (s.comp c).main ≠ .start)
    (Q := fun s => (s.comp c).main.ended = true) (fun s => (s.comp c).helper s.shared.now)
    (fun s => (s.comp c).left s.shared.now) hfair ?_ ?_ ?_ hbegun
  · intro s hr hP hQ
    exact duty_pending hP (Call.helper_pending (attended_of_reachable hr c) (by simpa using hQ))
  · intro s hr hP hQ
    exact duty_not_idle (Call.helper_pending (attended_of_reachable hr c) (by simpa using hQ))
  · intro s e s' hr hP hQ hs
    refine .inr ⟨kept_step (P := fun k => k.main ≠ .start) Call.begun_act hP hs,
      (call_progress hr (by simpa using hQ) hs).imp id ?_⟩
    rintro ⟨hleft, hhelp, hdoes, hclock⟩
    exact ⟨hleft, hhelp, duty_not_met hdoes hclock⟩

/-! ## Families of calls and children -/

namespace Family

variable {F F' : Family} {c : ℕ}

/-- The event is one by which the helper helps call `c`. -/
def Event.helps (c : ℕ) (h : Helper) : Event → Bool
  | .thread (.act d a) => d = c ∧ h.does a = true
  | .exit d => d = c ∧ h = .death
  | _ => false

/-- What call `c` needs to go on. -/
def helper (F : Family) (c : ℕ) : Helper := (F.sys.comp c).helper F.sys.shared.now

/-- How much call `c` has before it. -/
def left (F : Family) (c : ℕ) : ℕ := (F.sys.comp c).left F.sys.shared.now

/-- What call `c` needs to go on is possible. -/
theorem Sound.helper_pending (hF : F.Sound) (hend : (F.sys.comp c).main.ended = false) :
    (F.sys.comp c).Pending F.sys.shared (F.helper c) :=
  Call.helper_pending (attended_of_reachable hF.sys c) hend

/-- An event by which the helper helps the call is possible while the helper is pending. -/
theorem helps_of_pending {h : Helper} (hp : (F.sys.comp c).Pending F.sys.shared h)
    (hclock : ∀ wake, h ≠ .clock wake) :
    ∃ e : Event, e.helps c h = true ∧ (F.step e).isSome = true := by
  obtain ⟨a, hdoes, hact⟩ := Call.act_of_pending hp hclock
  have hstep : (system.step F.sys (.act c a)).isSome = true := by
    simpa [system, Interleaving.system, Interleaving.step, calls] using hact
  cases a with
  | child x =>
    -- of what a child does, only its death helps its parent
    have hx : x = .exit ∧ h = .death := by
      cases h <;> cases x <;> simp [Helper.does] at hdoes ⊢
    obtain ⟨rfl, rfl⟩ := hx
    exact ⟨.exit c, by simp [Event.helps], by simpa [step, move] using hstep⟩
  | main | fail msg | waitChild | waitReady | send err =>
    refine ⟨.thread (.act c _), by simp [Event.helps]; exact hdoes, ?_⟩
    simpa [step, ofChild] using hstep

/-- **Every step of the family is progress** of each call that has not ended. -/
theorem Sound.call_progress {e : Event} (hF : F.Sound)
    (hend : (F.sys.comp c).main.ended = false) (h : F.step e = some F') :
    F'.left c < F.left c ∨
    F'.left c = F.left c ∧ F'.helper c = F.helper c ∧ e.helps c (F.helper c) = false ∧
      ∀ wake, F.helper c = .clock wake → ¬ wake ≤ F'.sys.shared.now := by
  have hpending := hF.helper_pending hend
  rcases step_eq_some h with ⟨e', s, rfl, -, hs, rfl⟩ | ⟨d, rfl, -, -, rfl⟩ |
    ⟨d, a, s, p, hs, rfl, hcases⟩
  · refine (Executioner.call_progress hF.sys hend hs).imp id ?_
    rintro ⟨hleft, hhelp, hdoes, hclock⟩
    refine ⟨hleft, hhelp, ?_, hclock⟩
    cases e' with
    | act d a =>
      by_cases hd : d = c
      · subst hd
        simp only [Event.helps, true_and, decide_eq_false_iff_not, Bool.not_eq_true]
        exact hdoes a rfl
      · simp [Event.helps, hd]
    | env ms => rfl
  · refine .inr ⟨rfl, rfl, rfl, fun wake hwake => ?_⟩
    rw [hwake] at hpending
    exact hpending
  · refine (Executioner.call_progress hF.sys hend hs).imp id ?_
    rintro ⟨hleft, hhelp, hdoes, hclock⟩
    refine ⟨hleft, hhelp, ?_, hclock⟩
    rcases hcases with ⟨b, rest, rfl, -⟩ | ⟨rfl, -⟩ | ⟨rest, rfl, -⟩ | ⟨rfl, rfl, -⟩
    · rfl
    · rfl
    · rfl
    · by_cases hd : d = c
      · subst hd
        have hnot : (F.helper d).does (.child .exit) = false := hdoes _ rfl
        simp only [Event.helps, true_and, decide_eq_false_iff_not]
        intro hdeath
        rw [hdeath] at hnot
        cases hnot
      · simp [Event.helps, hd]

/-- A call that has begun has begun for good. -/
theorem begun_step {e : Event} (hbegun : (F.sys.comp c).main ≠ .start)
    (h : F.step e = some F') : (F'.sys.comp c).main ≠ .start := by
  rcases sys_step h with heq | ⟨e', hs⟩
  · rw [heq]
    exact hbegun
  · exact Executioner.kept_step (P := fun k => k.main ≠ .start) Call.begun_act hbegun hs

/-- A call that has ended has ended for good. -/
theorem ended_step {e : Event} (hend : (F.sys.comp c).main.ended = true)
    (h : F.step e = some F') : (F'.sys.comp c).main.ended = true := by
  rcases sys_step h with heq | ⟨e', hs⟩
  · rw [heq]
    exact hend
  · exact Executioner.kept_step (P := fun k => k.main.ended = true) Call.ended_act hend hs

/-- A child goes on from `fresh` by `ready`, or by dropping its `Ecdysis`. -/
theorem fresh_step {e : Event} {n : ℕ} (h : F.step e = some F')
    (hfresh : F.prog n = .fresh) (hready : e ≠ .ready n) (hclose : e ≠ .close n) :
    F'.prog n = .fresh := by
  rcases step_eq_some h with ⟨e', s, -, -, -, rfl⟩ | ⟨c, rfl, -, -, rfl⟩ |
    ⟨c, a, s, p, -, rfl, hcases⟩
  · exact hfresh
  · have hne : n ≠ c := by
      rintro rfl
      exact hready rfl
    exact (Function.update_of_ne hne _ _).trans hfresh
  · by_cases hnc : n = c
    · subst hnc
      dsimp only
      rw [Function.update_self]
      rcases hcases with ⟨b, rest, -, -, hprog, -⟩ | ⟨rfl, -⟩ | ⟨rest, rfl, -⟩ | ⟨-, -, rfl⟩
      · rw [hfresh] at hprog
        cases hprog
      · exact absurd rfl hclose
      · exact absurd rfl hclose
      · exact hfresh
    · exact (Function.update_of_ne hnc _ _).trans hfresh

end Family

/-! ## How many steps a call takes -/

/-- The event is a step of a thread of call `c`. -/
def Event.ofThread (c : ℕ) : Event → Bool
  | .act _ (.child _) | .env _ => false
  | .act d _ => d = c

/-- **In every run**, fair or not, the threads of a call take at most 76 steps. -/
theorem thread_steps_bounded {s : Sys} {es : List Event} (c : ℕ)
    (hrun : system.run Sys.init es = some s) : es.countP (Event.ofThread c) ≤ 76 := by
  have hcount := TransitionSystem.count_le_of_rank (M := system)
    (fun s : Sys => (s.comp c).left s.shared.now) (A := Event.ofThread c)
    (I := fun s => system.Reachable s) (fun s e s' hr h => hr.step h) ?_ reachable_init hrun
  · have hinit : ((Sys.init).comp c).left Sys.init.shared.now = 76 := rfl
    omega
  · intro s e s' hr h
    rcases step_cases h with ⟨d, a, g', k', rfl, hact, rfl⟩ | ⟨ms, rfl, rfl⟩
    · obtain ⟨hnow, hprogress⟩ := Call.act_progress (attended_of_reachable hr d) hact
      by_cases hdc : c = d
      · subst hdc
        simp only [Function.update_self, hnow]
        rcases hprogress with hlt | ⟨⟨x, rfl⟩, heq, -, -⟩
        · split <;> omega
        · simp only [Event.ofThread, Bool.false_eq_true, if_false]
          omega
      · have hother : Event.ofThread c (.act d a) = false := by
          cases a <;> simp [Event.ofThread, Ne.symm hdc]
        simp only [Function.update_of_ne hdc, hnow, hother, Bool.false_eq_true, if_false]
        omega
    · simp only [Event.ofThread, Bool.false_eq_true, if_false]
      rcases (s.comp c).tick_progress (Nat.le_add_right s.shared.now ms) with hlt | ⟨heq, -, -⟩
      · omega
      · omega

/-- A call whose child stays silent until it is killed. -/
def timedOut : List Event :=
  List.replicate 10 (.act 0 .main) ++ ([.act 0 .waitChild] : List Event) ++
    (List.replicate 10 ([.act 0 .waitChild, .env 500, .act 0 .waitChild, .act 0 .waitChild,
      .act 0 .waitChild] : List Event)).flatten ++
    ([.act 0 .waitChild, .act 0 .waitChild, .act 0 (.child .exit), .act 0 .waitChild,
      .act 0 .waitReady, .act 0 .main, .act 0 .main, .act 0 .main, .act 0 (.send none),
      .act 0 .main] : List Event)

/-- The call with the silent child, from its first step to its last. -/
theorem thread_steps_bounded_timedOut :
    ∃ s, system.run Sys.init timedOut = some s ∧
      (s.comp 0).main.ended = true ∧ timedOut.countP (Event.ofThread 0) ≤ 76 := by
  obtain ⟨s, hs, hend⟩ := TransitionSystem.exists_run system Sys.init timedOut
    (fun s => (s.comp 0).main.ended = true) (by decide +kernel)
  exact ⟨s, hs, of_decide_eq_true hend, thread_steps_bounded 0 hs⟩

end Executioner
