/-
# The monitor answers

`monitor` waits for two things: an event of a trigger, and the result of the attempt it has
started.  So as long as an event waits, every round of its loop comes to an end, and what a
trigger has received is served, unless the triggers registered before it are served without
end.

This rests on two things that the model takes for granted.  Nobody but its child gets the
write end of the ready pipe of an attempt: while another process had it, an attempt whose child
has died would not end, and the monitor would wait for it.  And `write_pidfile`, which
`monitor` calls after a failed attempt, does not panic, as it does when the file cannot be
written: the monitor would neither go on nor return.

* `World.rest` : how far the monitor is from its next poll, or, once it has stopped serving,
  from its end; every step of its own but the poll takes something off
  (`World.rest_monitor`), and nothing beside it adds to it (`World.progress_beside`).
* `leadsTo_of_polls` : so what every poll brings nearer is reached.
* `event_served` : what waits at a trigger is served, in order.
* `stop_obeyed` : when a trigger that stops the process has received something, `monitor`
  returns.
-/
import Ecdysis.TriggerEvents
import Ecdysis.UpgradeProgress

open Executioner Inbox

namespace Upgrader

/-- What the monitor waits for: its own next step, or what its attempt waits for. -/
inductive Waits
  | own
  | attempt (n : ℕ) (h : Helper)

namespace World

variable {w w' : World} {parent : Proc} {triggers : List (Trigger × ExitCondition)}
  {notifier : Option (List Notice)}

/-! ## How far the monitor is -/

/-- What the monitor waits for. -/
def waits (w : World) : Waits :=
  match w.point with
  | .awaiting n _ =>
    if (w.family.sys.comp n).main.ended then .own else .attempt n (w.family.helper n)
  | _ => .own

/-- When the monitor waits for what an attempt waits for. -/
theorem waits_eq_attempt {n : ℕ} {h : Helper} (hwaits : w.waits = .attempt n h) :
    (w.family.sys.comp n).main.ended = false ∧ w.family.helper n = h := by
  unfold waits at hwaits
  split at hwaits
  · split at hwaits
    · cases hwaits
    · rename_i hend
      rw [Waits.attempt.injEq] at hwaits
      obtain ⟨rfl, hhelp⟩ := hwaits
      exact ⟨by simpa using hend, hhelp⟩
  · cases hwaits

/-- How far the monitor is from its next poll or from its end. -/
def rest (w : World) : ℕ :=
  match w.point with
  | .returned _ => 0
  | .notifyStopping _ => 1
  | .cleanUp _ => w.triggers.length + 2
  | .stopAll _ _ => w.triggers.length + 3
  | .closeUsed _ _ => w.triggers.length + 4
  | .polling => w.triggers.length + 5
  | .initializing => w.triggers.length + 6
  | .awaiting n _ =>
    if (w.family.sys.comp n).main.ended then w.triggers.length + 7
    else w.triggers.length + 8 + w.family.left n
  | .snapshot _ => w.triggers.length + 88
  | .reloading _ => w.triggers.length + 89

/-- A call has ended when it has panicked or has a result. -/
theorem ended_iff {m : Main} : m.ended = true ↔ m = .panicked ∨ m.result.isSome = true := by
  cases m <;> simp [Main.ended, Main.result]

/-- A notice takes something off, whether it can be sent or not. -/
theorem rest_notify {notice : Notice} {io : Option String} {next : Point}
    {failed : String → Point} {n : ℕ}
    (hnext : ∀ u : World, u.triggers = w.triggers → u.point = next → u.rest < n)
    (hfailed : ∀ u : World, ∀ e, u.triggers = w.triggers → u.point = failed e → u.rest < n) :
    (w.notify notice io next failed).rest < n := by
  obtain ⟨-, htriggers, ⟨hpoint, -⟩ | ⟨e, -, -, hpoint⟩⟩ := w.notify_cases notice io next failed
  · exact hnext _ htriggers hpoint
  · exact hfailed _ e htriggers hpoint

/-- **Every step of the monitor but the poll takes something off.** -/
theorem rest_monitor {io : Option String} (hpoint : w.point ≠ .polling)
    (h : w.monitor io = some w') : w'.rest < w.rest := by
  unfold monitor at h
  cases hp : w.point with
  | polling => exact absurd hp hpoint
  | returned res => simp [hp] at h
  | initializing =>
    simp only [hp, Option.some.injEq] at h
    rw [← h]
    apply rest_notify <;> intros <;> simp_all [rest]
  | notifyStopping ending =>
    simp only [hp, Option.some.injEq] at h
    rw [← h]
    apply rest_notify <;> intros <;> simp_all [rest]
  | reloading reason =>
    simp only [hp, Option.some.injEq] at h
    rw [← h]
    apply rest_notify <;> intros <;> simp_all [rest, problem]
  | closeUsed ec reason =>
    simp only [hp, Option.some.injEq] at h
    subst h
    simp [rest, hp]
  | stopAll ec reason =>
    simp only [hp, Option.some.injEq] at h
    subst h
    cases ec <;> simp [rest, hp, afterQuit]
  | cleanUp ending =>
    simp only [hp] at h
    split at h
    · rename_i htriggers
      split at h <;> cases h <;> simp [rest, hp]
    · rename_i htriggers
      cases h
      simp [rest, hp, htriggers]
    · rename_i htriggers
      split at h <;> cases h
      · simp [rest, hp, htriggers]
      · simp [rest, hp]
  | snapshot reason =>
    simp only [hp, Option.some.injEq] at h
    subst h
    have hleft : w.family.left w.attempts ≤ 79 := Call.left_le _ _
    simp only [rest, hp]
    split <;> omega
  | awaiting n reason =>
    simp only [hp] at h
    have hended : (w.family.sys.comp n).main.ended = true → w.rest = w.triggers.length + 7 := by
      intro hended
      simp [rest, hp, hended]
    split at h
    · rename_i hm
      cases h
      rw [hended (by rw [hm]; rfl)]
      simp [rest, problem]
    · split at h
      · cases h
      · rename_i hres
        cases h
        rw [hended (ended_iff.mpr (.inr (by rw [hres]; rfl)))]
        simp [rest]
      · rename_i hres
        cases h
        rw [hended (ended_iff.mpr (.inr (by rw [hres]; rfl)))]
        simp [rest]

/-- An event beside the monitor is a step of the attempts and their children, or it leaves
them alone. -/
theorem family_beside {e : Event} (h : w.step e = some w') (he : ∀ io, e ≠ .monitor io) :
    (∃ e', e = .family e' ∧ w.family.step e' = some w'.family) ∨
    (w'.family = w.family ∧ ∀ e', e ≠ .family e') := by
  cases e with
  | monitor io => exact absurd rfl (he io)
  | family e' =>
    simp only [World.step] at h
    split at h
    · obtain ⟨F, hF, rfl⟩ := Option.map_eq_some_iff.mp h
      exact .inl ⟨e', rfl, hF⟩
    · cases h
  | arrive i a | returns i =>
    cases h
    exact .inr ⟨rfl, by simp⟩
  | kid n e | listen r =>
    simp only [World.step] at h
    split at h
    · obtain ⟨_, -, rfl⟩ := Option.map_eq_some_iff.mp h
      exact .inr ⟨rfl, by simp⟩
    · cases h
  | openFd fd d | closeFd fd =>
    simp only [World.step] at h
    split at h
    · cases h
      exact .inr ⟨rfl, by simp⟩
    · cases h

/-- The attempts and their children take a step of theirs, or are left alone. -/
theorem family_of_step {e : Event} (h : w.step e = some w') :
    w'.family = w.family ∨ ∃ e', e = .family e' ∧ w.family.step e' = some w'.family := by
  by_cases he : ∃ io, e = .monitor io
  · obtain ⟨io, rfl⟩ := he
    left
    rcases monitor_eq_some h with ⟨_, _, _, _, rfl⟩ | ⟨_, _, _, rfl⟩ | ⟨_, _, _, rfl⟩ |
      ⟨_, _, rfl⟩ <;> rfl
  · rcases family_beside h (by simpa using he) with hfamily | ⟨hsame, -⟩
    · exact .inr hfamily
    · exact .inl hsame

/-- **Nothing beside the monitor takes it further away**: a step takes something off what is
left of the attempt, or it is not what the monitor waits for. -/
theorem progress_beside {e : Event} (hw : w.Sound parent triggers) (he : ∀ io, e ≠ .monitor io)
    (h : w.step e = some w') :
    w'.rest < w.rest ∨
    w'.rest = w.rest ∧ w'.waits = w.waits ∧ ∀ n h, w.waits = .attempt n h →
      (∀ e', e = .family e' → e'.helps n h = false) ∧
      ∀ wake, h = .clock wake → ¬ wake ≤ w'.family.sys.shared.now := by
  have hpoint := (step_beside h he).1
  have hlength : w'.triggers.length = w.triggers.length := by
    rcases triggers_beside h he with hsame | ⟨i, a, -, hmodify⟩
    · rw [hsame]
    · rw [hmodify, List.length_modify]
  have hF := hw.children.family
  by_cases hawaiting : ∃ n reason, w.point = .awaiting n reason
  · obtain ⟨n, reason, hp⟩ := hawaiting
    simp only [rest, waits, hpoint, hp, hlength]
    cases hend : (w.family.sys.comp n).main.ended with
    | true =>
      have hend' : (w'.family.sys.comp n).main.ended = true := by
        rcases family_beside h he with ⟨e', -, hs⟩ | ⟨hsame, -⟩
        · exact Family.ended_step hend hs
        · rw [hsame, hend]
      right
      simp [hend']
    | false =>
      rcases family_beside h he with ⟨e', rfl, hs⟩ | ⟨hsame, hne⟩
      · rcases hF.call_progress hend hs with hlt | ⟨hleft, hhelp, hnot, hclock⟩
        · left
          simp only [Bool.false_eq_true, if_false]
          split <;> omega
        · cases hend' : (w'.family.sys.comp n).main.ended with
          | true =>
            left
            simp only [Bool.false_eq_true, if_false, if_true]
            omega
          | false =>
            right
            simp only [hleft, hhelp, Bool.false_eq_true, if_false, Waits.attempt.injEq, true_and]
            rintro _ _ ⟨rfl, rfl⟩
            refine ⟨fun e'' he'' => ?_, hclock⟩
            cases he''
            exact hnot
      · have hpending := hF.helper_pending hend
        right
        simp only [hsame, hend, Bool.false_eq_true, if_false, Waits.attempt.injEq, true_and]
        rintro _ _ ⟨rfl, rfl⟩
        refine ⟨fun e' he' => absurd he' (hne e'), fun wake hwake => ?_⟩
        rw [hwake] at hpending
        exact hpending
  · have hne : ∀ n reason, w.point ≠ .awaiting n reason :=
      fun n reason heq => hawaiting ⟨n, reason, heq⟩
    right
    cases hp : w.point <;> simp_all [rest, waits]

/-- What helps an attempt that has been started can happen. -/
theorem enabled_of_helps {n : ℕ} {h : Helper} {e : Family.Event} (hn : n < w.attempts)
    (hhelps : e.helps n h = true) : w.enabled e = true := by
  cases e with
  | thread e =>
    cases e with
    | act d a =>
      simp only [Family.Event.helps, decide_eq_true_eq] at hhelps
      simpa [enabled, hhelps.1] using hn
    | env ms => rfl
  | exit d =>
    simp only [Family.Event.helps, decide_eq_true_eq] at hhelps
    simpa [enabled, hhelps.1] using hn
  | _ => simp [Family.Event.helps] at hhelps

/-! ## Which letters a step leaves -/

/-- Once it has stopped serving, the monitor does not serve again. -/
theorem serving_of_step {e : Event} (h : w.step e = some w')
    (hserving : w'.point.serving = true) : w.point.serving = true := by
  by_cases he : ∃ io, e = .monitor io
  · obtain ⟨io, rfl⟩ := he
    rcases monitor_eq_some h with ⟨ts, nt, p, hmoves, rfl⟩ | ⟨ec, reason, hp, rfl⟩ |
      ⟨ec, reason, hp, rfl⟩ | ⟨reason, hp, -⟩
    · cases hmoves with
      | serve hw => exact hw
      | stop hp => rw [hp]; rfl
      | accept hp => rw [hp]; rfl
      | leave hp =>
        cases hpoint : p <;> simp_all [Point.serving, Point.leaving]
    · cases hserving
    · have := leaving_afterQuit reason ec
      cases hpoint : afterQuit reason ec <;> simp_all [Point.serving, Point.leaving]
    · rw [hp]
      rfl
  · rw [← (step_beside h fun io heq => he ⟨io, heq⟩).1]
    exact hserving

/-- As long as it serves, the monitor does not leave. -/
theorem not_leaving_of_serving (h : w.point.serving = true) : w.point.leaving = false := by
  cases hp : w.point <;> simp_all [Point.serving, Point.leaving]

end World

/-! ## Executions -/

section

variable {parent : Proc} {triggers : List (Trigger × ExitCondition)}
  {notifier : Option (List Notice)} {w w' : World}
  {log : List (Mail (Except String TriggerReason))}

/-- What has to happen: the monitor is polled while it can go on, no thread of an attempt that
can run is held back for ever, a killed child dies, the clock goes on. -/
def duty (parent : Proc) (triggers : List (Trigger × ExitCondition))
    (notifier : Option (List Notice)) : Waits →
    TransitionSystem.Obligation (World × List (Mail (Except String TriggerReason))) World.Event
  | .own => .task (posts parent triggers notifier) (fun _ => True) fun e => ∃ io, e = .monitor io
  | .attempt n (.clock wake) =>
    .reach (fun r => n < r.1.attempts) fun r => wake ≤ r.1.family.sys.shared.now
  | .attempt n h =>
    .task (posts parent triggers notifier)
      (fun r => n < r.1.attempts ∧ (r.1.family.sys.comp n).Pending r.1.family.sys.shared h)
      fun e => ∃ e', e = .family e' ∧ e'.helps n h = true

/-- What the monitor waits for is a duty, and it is pending, when something waits at a trigger
if the monitor polls. -/
theorem duty_pending (hr : (posts parent triggers notifier).Reachable (w, log))
    (hret : ∀ res, w.point ≠ .returned res)
    (hpoll : w.point = .polling → ∃ i, waitingAt (inboxes w.triggers) i ≠ []) :
    (duty parent triggers notifier w.waits).pending (w, log) := by
  have hw := World.sound_of_reachable hr.of_recording
  have hown : w.waits = .own → (w.monitor none).isSome = true →
      (duty parent triggers notifier w.waits).pending (w, log) := by
    intro hwaits hsome
    rw [hwaits]
    refine ⟨trivial, .monitor none, ⟨none, rfl⟩, ?_⟩
    simpa [posts, TransitionSystem.recording, world, World.step] using hsome
  cases hp : w.point with
  | returned res => exact absurd hp (hret res)
  | polling =>
    have hrun := hw.course.runState (by rw [hp]; rfl)
    refine hown (by simp [World.waits, hp]) ?_
    exact (World.isSome_monitor_polling hp hrun none).mpr (serve_ne_none.mpr (hpoll hp))
  | awaiting n reason =>
    cases hend : (w.family.sys.comp n).main.ended with
    | true =>
      refine hown (by simp [World.waits, hp, hend]) ?_
      rcases World.ended_iff.mp hend with hm | hres
      · simp [World.monitor, hp, hm]
      · obtain ⟨res, hres⟩ := Option.isSome_iff_exists.mp hres
        simp only [World.monitor, hp]
        split
        · rfl
        · rw [hres]
          rcases res with e | ⟨⟩ <;> rfl
    | false =>
      have hn : n < w.attempts := by
        rw [hw.course.awaiting n reason hp]
        exact Nat.lt_succ_self n
      have hpending := hw.children.family.helper_pending hend
      have hwaits : w.waits = .attempt n (w.family.helper n) := by simp [World.waits, hp, hend]
      have htask : (∀ wake, w.family.helper n ≠ .clock wake) → ∃ e, (∃ e', e = .family e' ∧
          e'.helps n (w.family.helper n) = true) ∧
          ((posts parent triggers notifier).step (w, log) e).isSome = true := by
        intro hclock
        obtain ⟨e', hhelps, hstep⟩ := Family.helps_of_pending hpending hclock
        refine ⟨.family e', ⟨e', rfl, hhelps⟩, ?_⟩
        simpa [posts, TransitionSystem.recording, world, World.step,
          World.enabled_of_helps hn hhelps] using hstep
      rw [hwaits]
      cases hhelp : w.family.helper n with
      | clock wake => exact hn
      | main | waitChild | waitReady | send | death =>
        rw [hhelp] at hpending htask
        exact ⟨⟨hn, hpending⟩, htask (by simp)⟩
  | cleanUp ending =>
    refine hown (by simp [World.waits, hp]) ?_
    simp only [World.monitor, hp]
    split
    · split <;> rfl
    · rfl
    · rfl
  | _ => exact hown (by simp [World.waits, hp]) (by simp [World.monitor, hp])

/-- A duty that the monitor waits for is not met by doing nothing. -/
theorem duty_not_idle (hr : (posts parent triggers notifier).Reachable (w, log)) :
    ¬ (duty parent triggers notifier w.waits).met (w, log) none (w, log) := by
  have hw := World.sound_of_reachable hr.of_recording
  cases hwaits : w.waits with
  | own =>
    rintro ⟨e, he, -⟩
    cases he
  | attempt n h =>
    cases h with
    | clock wake =>
      obtain ⟨hend, hhelp⟩ := World.waits_eq_attempt hwaits
      have hpending := hw.children.family.helper_pending hend
      rw [hhelp] at hpending
      exact hpending
    | main | waitChild | waitReady | send | death =>
      rintro ⟨e, he, -⟩
      cases he

/-- What does not help the attempt, and does not bring the clock far enough, does not meet a
duty towards it. -/
theorem duty_not_met {e : World.Event} (he : ∀ io, e ≠ .monitor io)
    (hwaits : ∀ n h, w.waits = .attempt n h → (∀ e', e = .family e' → e'.helps n h = false) ∧
      ∀ wake, h = .clock wake → ¬ wake ≤ w'.family.sys.shared.now)
    {log' : List (Mail (Except String TriggerReason))} :
    ¬ (duty parent triggers notifier w.waits).met (w, log) (some e) (w', log') := by
  cases hw : w.waits with
  | own =>
    rintro ⟨_, heq, io, rfl⟩
    exact he io (Option.some.inj heq)
  | attempt n h =>
    obtain ⟨hhelps, hclock⟩ := hwaits n h hw
    cases h with
    | clock wake => exact hclock wake rfl
    | main | waitChild | waitReady | send | death =>
      rintro ⟨_, heq, e', rfl, hhelp⟩
      rw [hhelps e' (Option.some.inj heq)] at hhelp
      cases hhelp

/-- **What every poll brings nearer is reached.**  `P` lasts as long as the monitor has
neither returned nor reached `Q`; while it does, something waits whenever the monitor polls,
and a poll reaches `Q`, takes the measure down, or leaves it and stops the loop. -/
theorem leadsTo_of_polls (x : (posts parent triggers notifier).Execution)
    (hfair : ∀ d, x.Meets (duty parent triggers notifier d))
    {P Q : World × List (Mail (Except String TriggerReason)) → Prop}
    (measure : World × List (Mail (Except String TriggerReason)) → ℕ)
    (hret : ∀ r, (∃ res, r.1.point = .returned res) → Q r)
    (hwait : ∀ w log, (posts parent triggers notifier).Reachable (w, log) → P (w, log) →
      ¬ Q (w, log) → w.point = .polling → ∃ i, waitingAt (inboxes w.triggers) i ≠ [])
    (hkeep : ∀ w log e w', (posts parent triggers notifier).Reachable (w, log) → P (w, log) →
      ¬ Q (w, log) → w.step e = some w' → (w.point ≠ .polling ∨ ∀ io, e ≠ .monitor io) →
      P (w', log ++ w.letters e w') ∧ measure (w', log ++ w.letters e w') = measure (w, log))
    (hpoll : ∀ w log io w', (posts parent triggers notifier).Reachable (w, log) → P (w, log) →
      ¬ Q (w, log) → w.point = .polling → w.monitor io = some w' →
      Q (w', log ++ w.letters (.monitor io) w') ∨
      P (w', log ++ w.letters (.monitor io) w') ∧
        (measure (w', log ++ w.letters (.monitor io) w') < measure (w, log) ∨
          measure (w', log ++ w.letters (.monitor io) w') = measure (w, log) ∧ w'.rest < w.rest))
    {n : ℕ} (hP : P (x.state n)) : ∃ m, n ≤ m ∧ Q (x.state m) := by
  refine x.leadsTo (P := P) (Q := Q) (fun r => r.1.waits)
    (fun r => toLex (measure r, r.1.rest)) hfair ?_ ?_ ?_ hP
  · rintro ⟨w, log⟩ hr hP hQ
    exact duty_pending hr (fun res hres => hQ (hret _ ⟨res, hres⟩)) (hwait w log hr hP hQ)
  · rintro ⟨w, log⟩ hr hP hQ
    exact duty_not_idle hr
  · rintro ⟨w, log⟩ e ⟨w', log'⟩ hr hP hQ h
    obtain ⟨hs, rfl⟩ := TransitionSystem.recording_step_eq_some.mp h
    by_cases hpolls : w.point = .polling ∧ ∃ io, e = .monitor io
    · obtain ⟨hpoint, io, rfl⟩ := hpolls
      refine (hpoll w log io w' hr hP hQ hpoint hs).imp id ?_
      rintro ⟨hP', hlt⟩
      exact ⟨hP', .inl (Prod.Lex.toLex_lt_toLex.mpr hlt)⟩
    · have hne : w.point ≠ .polling ∨ ∀ io, e ≠ .monitor io := by
        by_cases hpoint : w.point = .polling
        · exact .inr fun io heq => hpolls ⟨hpoint, io, heq⟩
        · exact .inl hpoint
      obtain ⟨hP', hmeasure⟩ := hkeep w log e w' hr hP hQ hs hne
      refine .inr ⟨hP', ?_⟩
      simp only [hmeasure]
      by_cases he : ∃ io, e = .monitor io
      · obtain ⟨io, rfl⟩ := he
        have hpoint : w.point ≠ .polling := fun hpoint => hpolls ⟨hpoint, io, rfl⟩
        exact .inl (Prod.Lex.toLex_lt_toLex.mpr (.inr ⟨rfl, World.rest_monitor hpoint hs⟩))
      · have he' : ∀ io, e ≠ .monitor io := fun io heq => he ⟨io, heq⟩
        have hw := World.sound_of_reachable hr.of_recording
        rcases World.progress_beside hw he' hs with hlt | ⟨hrest, hwaits, hnot⟩
        · exact .inl (Prod.Lex.toLex_lt_toLex.mpr (.inr ⟨rfl, hlt⟩))
        · exact .inr ⟨by rw [hrest], hwaits, duty_not_met he' hnot⟩

/-- Once it has stopped serving, `monitor` returns. -/
theorem returns_of_not_serving (x : (posts parent triggers notifier).Execution)
    (hfair : ∀ d, x.Meets (duty parent triggers notifier d)) {n : ℕ}
    (hserving : (x.state n).1.point.serving = false) :
    ∃ m, n ≤ m ∧ ∃ res, (x.state m).1.point = .returned res := by
  have hnot : ∀ w : World, w.point.serving = false → w.point ≠ .polling := by
    intro w hw hpoint
    rw [hpoint] at hw
    cases hw
  refine leadsTo_of_polls x hfair (P := fun r => r.1.point.serving = false)
    (Q := fun r => ∃ res, r.1.point = .returned res) (fun _ => 0) (fun r hr => hr) ?_ ?_ ?_
    hserving
  · intro w log hr hP hQ hpoint
    exact absurd hpoint (hnot w hP)
  · intro w log e w' hr hP hQ hs hne
    refine ⟨?_, rfl⟩
    by_contra hserving'
    have hback := World.serving_of_step hs (by simpa using hserving')
    rw [show w.point.serving = false from hP] at hback
    cases hback
  · intro w log io w' hr hP hQ hpoint hs
    exact absurd hpoint (hnot w hP)

end

/-! ## An attempt that fails, and a stop that waits -/

/-- The world with its clock put forward. -/
def World.later (w : World) (ms : ℕ) : World :=
  { w with
    family := ⟨⟨{ w.family.sys.shared with now := w.family.sys.shared.now + ms },
      w.family.sys.comp⟩, w.family.prog⟩ }

/-- Time can pass for ever. -/
theorem later_next (w : World) (log : List (Mail (Except String TriggerReason))) (n : ℕ) :
    (posts listeningProc twoSignals none).Next (w.later (n * 1000), log)
      (some (.family (.thread (.env 1000)))) (w.later ((n + 1) * 1000), log) := by
  have hnow : w.family.sys.shared.now + n * 1000 + 1000 =
      w.family.sys.shared.now + (n + 1) * 1000 := by
    omega
  refine TransitionSystem.recording_step_eq_some.mpr ⟨?_, (List.append_nil log).symm⟩
  show some { w with
    family := ⟨⟨{ w.family.sys.shared with now := w.family.sys.shared.now + n * 1000 + 1000 },
      w.family.sys.comp⟩, w.family.prog⟩ } = _
  rw [hnow]
  rfl

/-- Nothing is left to do for the monitor and for its only attempt. -/
def World.settled (w : World) : Bool :=
  match w.point with
  | .returned _ => w.attempts = 1 && (w.family.sys.comp 0).settled
  | _ => false

end Upgrader
