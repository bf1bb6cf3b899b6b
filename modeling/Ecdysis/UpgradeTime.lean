/-
# How long an upgrade takes

`wait_child` gives its child five seconds, in pauses of half a second.  That the whole call of
`upgrade` keeps to them is another matter: its three threads wait for each other, for the
child, which may be silent or die slowly, and for the clock.

* `Call.rest` : how long `wait_child` has still to sleep; no step adds to it, and the time it
  sleeps is taken off (`Call.rest_act`, `WaitChild.rest_asleep`).
* `upgrade_in_time` : when a thread that can go on does so within `slack` milliseconds, and a
  killed child is dead within `slack` milliseconds, a call ends at most five seconds and 79
  times `slack` after it was made, whether its child answers, is silent, is slow or dies, and
  whatever all other calls do.

As in `Handshake`, nobody but the child gets the write end of the ready pipe.  A command that
has it and outlives the child makes the call as long as itself.
-/
import Ecdysis.Deadline
import Ecdysis.Handshake

namespace Executioner

variable {g g' : Shared} {k k' : Call} {now now' : ℕ}

/-! ## The sleep of `wait_child` -/

/-- How long the thread has still to sleep. -/
def WaitChild.rest (now : ℕ) : WaitChild → ℕ
  | .idle | .entry => timeoutMs
  | .test begun | .poll begun | .load begun => sleepMs * pollsLeft (now - begun)
  | .sleep begun wake => sleepMs * pollsLeft (wake - begun) + (wake - now)
  | .final | .kill | .wait | .done _ => 0

/-- No step of `wait_child` adds to its sleep. -/
theorem Call.rest_stepWaitChild (htimely : k.waitChild.Timely g.now)
    (h : k.stepWaitChild g = some k') : k'.waitChild.rest g.now ≤ k.waitChild.rest g.now := by
  unfold Call.stepWaitChild at h
  cases hc : k.waitChild with
  | entry =>
    simp only [hc, Option.some.injEq] at h
    subst h
    simp [WaitChild.rest, pollsLeft, timeoutMs, sleepMs]
  | test begun =>
    simp only [hc] at h
    rw [hc] at htimely
    split at h <;> cases h
    · rename_i hlt
      have hle : begun ≤ g.now := htimely
      have hsub : g.now + sleepMs - begun = g.now - begun + sleepMs := by omega
      have hpolls := pollsLeft_sleep hlt
      simp only [WaitChild.rest, hsub, ← hpolls, Nat.mul_add_one]
      omega
    · exact Nat.zero_le _
  | sleep begun wake =>
    simp only [hc] at h
    split at h <;> cases h
    rename_i hwake
    have hpolls := pollsLeft_le (Nat.sub_le_sub_right hwake begun)
    simp only [WaitChild.rest]
    exact (Nat.mul_le_mul_left sleepMs hpolls).trans (Nat.le_add_right _ _)
  | poll begun =>
    simp only [hc, Option.some.injEq] at h
    subst h
    unfold Call.procWait
    split
    · exact le_rfl
    · exact Nat.zero_le _
  | load begun =>
    simp only [hc] at h
    split at h <;> cases h
    · exact le_rfl
    · exact Nat.zero_le _
  | final =>
    simp only [hc, Option.some.injEq] at h
    subst h
    unfold Call.procWait
    split <;> exact le_rfl
  | kill =>
    simp only [hc, Option.some.injEq] at h
    subst h
    exact le_rfl
  | wait =>
    simp only [hc] at h
    split at h <;> cases h
    exact le_rfl
  | idle | done res => simp [hc] at h

/-- Nor does any other step of its call. -/
theorem Call.rest_act {a : Act} (hk : k.Attended g.now) (h : k.act g a = some (g', k')) :
    k'.waitChild.rest g.now ≤ k.waitChild.rest g.now := by
  rcases Call.act_cases h with
    ⟨-, hs⟩ | ⟨-, ⟨msg, -, hs⟩ | ⟨-, hs⟩ | ⟨-, hs⟩ | ⟨err, -, hs⟩ | ⟨x, -, hs⟩⟩
  · rcases (Call.stepMain_moves hs).1 with heq | ⟨hmain, heq⟩
    · rw [heq]
    · -- `wait_child` is started here, so it was idle
      have hidle : k.waitChild = .idle := by
        have hm := hk.coherent.main
        unfold Call.MainFacts at hm
        rw [hmain] at hm
        exact hm.2.1 (by simp)
      rw [heq, hidle]
      exact le_rfl
  · unfold Call.stepFail at hs
    split at hs <;> cases hs
    exact le_rfl
  · exact Call.rest_stepWaitChild hk.timely hs
  · unfold Call.stepWaitReady at hs
    split at hs
    · split at hs
      · cases hs
        exact le_rfl
      · split at hs <;> cases hs
        exact le_rfl
    all_goals cases hs
  · unfold Call.stepSend at hs
    split at hs <;> cases hs
    exact le_rfl
  · unfold Call.stepChild at hs
    split at hs
    · cases x with
      | write b =>
        simp only at hs
        split at hs <;> cases hs
        exact le_rfl
      | close | exit =>
        cases hs
        exact le_rfl
    · cases hs

/-- Time takes sleep off. -/
theorem WaitChild.rest_tick (w : WaitChild) (hle : now ≤ now') : w.rest now' ≤ w.rest now := by
  cases w with
  | test begun | poll begun | load begun =>
    exact Nat.mul_le_mul_left sleepMs (pollsLeft_le (Nat.sub_le_sub_right hle begun))
  | sleep begun wake =>
    simp only [rest]
    omega
  | _ => exact le_rfl

/-- All the time the thread sleeps is taken off. -/
theorem WaitChild.rest_asleep {w : WaitChild} {alive : Bool} {wake : ℕ}
    (hhelp : w.helper now alive = .clock wake) (hwake : now' ≤ wake) :
    now' + w.rest now' ≤ now + w.rest now := by
  cases w with
  | sleep begun wake' =>
    simp only [helper] at hhelp
    split at hhelp <;> cases hhelp
    simp only [rest]
    omega
  | wait =>
    simp only [helper] at hhelp
    split at hhelp <;> cases hhelp
  | _ => cases hhelp

/-- A call that waits for the clock waits for `wait_child`, which sleeps. -/
theorem Call.asleep_of_helper {wake : ℕ} (h : k.helper now = .clock wake) :
    k.waitChild.helper now k.child.alive = .clock wake := by
  unfold Call.helper at h
  cases hm : k.main with
  | joinReady =>
    simp only [hm] at h
    repeat' split at h
    all_goals first | exact h | cases h
  | joinChild res =>
    simp only [hm] at h
    split at h
    · cases h
    · exact h
  | joinSend res =>
    simp only [hm] at h
    split at h <;> cases h
  | _ =>
    simp only [hm] at h
    cases h

/-- **One step of the system** adds to the sleep of no call, and takes off what it sleeps. -/
theorem rest_step {s s' : Sys} {c : ℕ} {e : Event} (hr : system.Reachable s)
    (h : system.step s e = some s') :
    (s'.comp c).waitChild.rest s'.shared.now ≤ (s.comp c).waitChild.rest s.shared.now ∧
    ∀ wake, (s.comp c).helper s.shared.now = .clock wake → s'.shared.now ≤ wake →
      s'.shared.now + (s'.comp c).waitChild.rest s'.shared.now ≤
        s.shared.now + (s.comp c).waitChild.rest s.shared.now := by
  have hattended := attended_of_reachable hr
  rcases step_cases h with ⟨d, a, g', k', rfl, hact, rfl⟩ | ⟨ms, rfl, rfl⟩
  · have hnow := (Call.act_progress (hattended d) hact).1
    have hrest : (Function.update s.comp d k' c).waitChild.rest s.shared.now ≤
        (s.comp c).waitChild.rest s.shared.now := by
      by_cases hdc : c = d
      · subst hdc
        rw [Function.update_self]
        exact Call.rest_act (hattended c) hact
      · rw [Function.update_of_ne hdc]
    simp only [hnow]
    exact ⟨hrest, fun _ _ _ => Nat.add_le_add_left hrest _⟩
  · have hle : s.shared.now ≤ s.shared.now + ms := Nat.le_add_right _ _
    exact ⟨(s.comp c).waitChild.rest_tick hle, fun wake hwake hle' =>
      WaitChild.rest_asleep (Call.asleep_of_helper hwake) hle'⟩

end Executioner

namespace Handshake

open Executioner

variable {capacity : ℕ} {w w' : World} {e : Event} {c : ℕ}

/-! ## A call as a party -/

/-- The call `c` as a party: it is under way from the moment it is made until it returns, and
sleeps while it waits for the clock. -/
def caller (c : ℕ) : Party World where
  active := fun w => (w.family.sys.comp c).main ≠ .start && !(w.family.sys.comp c).main.ended
  rank := fun w => w.family.left c
  wake := fun w => match w.family.helper c with
    | .clock wake => some wake
    | _ => none
  rest := fun w => (w.family.sys.comp c).waitChild.rest w.family.sys.shared.now

theorem caller_wake_eq_some {wake : ℕ} :
    (caller c).wake w = some wake ↔ w.family.helper c = .clock wake := by
  simp only [caller]
  split <;> simp_all

theorem caller_active_iff : (caller c).active w = true ↔
    (w.family.sys.comp c).main ≠ .start ∧ (w.family.sys.comp c).main.ended = false := by
  simp [caller]

/-- The time of day. -/
def World.now (w : World) : ℕ := w.family.sys.shared.now

theorem sys_step (h : w.step capacity e = some w') :
    w'.family.sys = w.family.sys ∨ ∃ e', system.step w.family.sys e' = some w'.family.sys := by
  rcases family_step h with ⟨hsame, -⟩ | ⟨e', hF, -⟩
  · exact .inl (congrArg Family.sys hsame)
  · exact Family.sys_step hF

/-- A call that has not ended has a step before it. -/
theorem left_pos (h : (w.family.sys.comp c).main.ended = false) : 0 < w.family.left c := by
  have hmain : 0 < (w.family.sys.comp c).main.left := by
    cases hm : (w.family.sys.comp c).main with
    | setup p => cases p <;> decide
    | start | joinReady | store res | joinChild res | joinSend res => simp [Main.left]
    | refused | aborted p msg | returned res | panicked =>
      rw [hm] at h
      cases h
  unfold Family.left Call.left
  omega

/-- **Each call is punctual.** -/
theorem punctual (capacity c slack : ℕ) :
    (caller c).Punctual (world capacity) World.now slack (timeoutMs + 79 * slack) where
  idle := by
    rintro w rfl
    rfl
  pending := fun w _ hactive => left_pos (caller_active_iff.mp hactive).2
  starts := by
    intro w e w' hr h hidle hactive
    obtain ⟨hbegun, hend⟩ := caller_active_iff.mp hactive
    have hsound := sound_of_reachable hr
    -- it has not ended, so it has only now begun
    have hstart : (w.family.sys.comp c).main = .start := by
      by_contra hne
      have hended : (w.family.sys.comp c).main.ended = true := by
        simpa [caller, hne] using hidle
      rcases family_step h with ⟨hsame, -⟩ | ⟨e', hF, -⟩
      · rw [hsame, hended] at hend
        cases hend
      · rw [Family.ended_step hended hF] at hend
        cases hend
    have hrest : (w'.family.sys.comp c).waitChild.rest w'.family.sys.shared.now ≤ timeoutMs := by
      have hwatch : (w.family.sys.comp c).waitChild = .idle := by
        have hm := (coherent_of_reachable hsound.family.sys c).main
        unfold Call.MainFacts at hm
        rw [hstart] at hm
        exact hm.1
      rcases sys_step h with hsame | ⟨e', hs⟩
      · rw [hsame, hwatch]
        exact le_rfl
      · have hle := (rest_step (c := c) hsound.family.sys hs).1
        rw [hwatch] at hle
        exact hle
    have hleft : w'.family.left c ≤ 79 := Call.left_le _ _
    calc slack * w'.family.left c + (caller c).rest w'
        ≤ slack * 79 + timeoutMs := Nat.add_le_add (Nat.mul_le_mul_left slack hleft) hrest
      _ = timeoutMs + 79 * slack := by omega
  waits := by
    intro w e w' hr h hactive
    rcases family_step h with ⟨hsame, -⟩ | ⟨e', hF, -⟩
    · exact .inr (by simp only [caller, hsame, and_self])
    · have hend := (caller_active_iff.mp hactive).2
      refine ((sound_of_reachable hr).family.call_progress hend hF).imp id ?_
      rintro ⟨hleft, hhelp, -⟩
      exact ⟨hleft, by simp only [caller, hhelp]⟩
  sleeps := by
    intro w e w' hr h _
    rcases sys_step h with hsame | ⟨e', hs⟩
    · simp only [caller, World.now, hsame]
      exact ⟨le_rfl, fun _ _ _ => le_rfl⟩
    · obtain ⟨hrest, hasleep⟩ := rest_step (c := c) (sound_of_reachable hr).family.sys hs
      exact ⟨hrest, fun wake hwake => hasleep wake (caller_wake_eq_some.mp hwake)⟩

/-- **A call of `upgrade` is in time**: when no thread that can go on is held back for more than
`slack` milliseconds, and a killed child is dead `slack` milliseconds later, it ends at most
five seconds and 79 times `slack` after it was made, whether its child, which alone has the
ends passed to it, answers, is silent, is slow or dies, and whatever all other calls do. -/
theorem upgrade_in_time (slack : ℕ) {r : World × Stopwatch}
    (hr : ((caller c).timed (world capacity) World.now slack).Reachable r) :
    r.2.last ≤ r.2.begun + (timeoutMs + 79 * slack) ∧
      ((caller c).active r.1 = true → r.1.now ≤ r.2.begun + (timeoutMs + 79 * slack)) :=
  (punctual capacity c slack).in_time hr

/-- A child that stays silent, with no time lost: the call ends after five seconds. -/
theorem upgrade_in_time_silent :
    ∃ r, ((caller 0).timed (world 3) World.now 0).Reachable r ∧
      (r.1.family.sys.comp 0).main.ended = true ∧ timeoutMs ≤ r.2.last ∧
      r.2.last ≤ r.2.begun + (timeoutMs + 79 * 0) := by
  obtain ⟨r, hrun, hp⟩ := TransitionSystem.exists_run ((caller 0).timed (world 3) World.now 0)
    (.init, ⟨0, 0⟩) silent
    (fun r => (r.1.family.sys.comp 0).main.ended && timeoutMs ≤ r.2.last) (by decide +kernel)
  rw [Bool.and_eq_true, decide_eq_true_eq] at hp
  have hinit : ((caller 0).timed (world 3) World.now 0).Init (.init, ⟨0, 0⟩) := ⟨rfl, rfl⟩
  have hr := TransitionSystem.reachable_of_run (.init hinit) hrun
  exact ⟨r, hr, hp.1, hp.2, (upgrade_in_time 0 hr).1⟩

end Handshake
