/-
# The flag `UPGRADING` as a lock

`UPGRADING` is meant to admit one upgrade at a time and to be released when the
upgrade is over.

* It is cleared before `wait_child` is joined, so a second call can win the swap while
  the first is still closing down (`two_upgrades_at_once`).  When no call is made in
  that window (`NoOverlap`), at most one call is under way and no `wait_child` of
  another one is left running (`single_upgrade`).
* It is not cleared on the exits through `?`: after calls made one after another
  (`OneAtATime`) the flag is free and no call was refused exactly when no set-up step
  of any of them failed (`lock_released_iff`, `failed_setup_keeps_lock`).
-/
import Ecdysis.UpgradeOutcome

namespace Executioner

variable {s s' : Sys} {c d : ℕ}

/-! ## Mutual exclusion -/

/-- The condition on the calls: none is made while another one has cleared the flag
and not returned yet. -/
def NoOverlap (s : Sys) : Event → Prop
  | .act c .main => (s.comp c).main = .start → ∀ d, (s.comp d).main.closing = false
  | _ => True

/-- The call owns the flag or is closing down. -/
def Main.engaged (m : Main) : Bool := m.owns || m.closing

/-- A thread `wait_child` that has been started and has not finished. -/
def WaitChild.running : WaitChild → Bool
  | .idle | .done _ => false
  | _ => true

theorem Main.engaged_of_inside {m : Main} (h : m.inside = true) : m.engaged = true := by
  cases m <;> simp_all [Main.inside, Main.engaged, Main.owns, Main.closing]

/-- A running `wait_child` belongs to a call that is engaged. -/
theorem Call.MainFacts.engaged_of_running {k : Call} (hm : k.MainFacts)
    (hw : k.waitChild.running = true) : k.main.engaged = true := by
  unfold Call.MainFacts at hm
  cases hk : k.main with
  | start | refused | aborted p msg =>
    rw [hk] at hm
    rw [hm.1] at hw
    cases hw
  | joinSend res | returned res =>
    rw [hk] at hm
    obtain ⟨-, q, -, ⟨hdone, -⟩ | ⟨e, hdone, -⟩⟩ := hm <;>
      · rw [hdone] at hw
        cases hw
  | _ => rfl

/-- Only winning the swap makes a call engaged. -/
theorem Call.engaged_of_act {g g' : Shared} {k k' : Call} {a : Act}
    (h : k.act g a = some (g', k')) :
    (a = .main ∧ k.main = .start ∧ g.upgrading = false)
      ∨ (k'.main.engaged = true → k.main.engaged = true) := by
  rcases Call.act_main_cases h with ⟨ha, hs⟩ | ⟨-, msg, -, hs⟩ | ⟨-, hmain⟩
  · unfold Call.stepMain at hs
    cases hm : k.main with
    | start =>
      simp only [hm] at hs
      split at hs <;> cases hs
      · exact .inr (by simp [Main.engaged, Main.owns, Main.closing])
      · rename_i hup
        exact .inl ⟨ha, rfl, by simpa using hup⟩
    | refused | aborted p msg | returned res | panicked => simp [hm] at hs
    | _ => exact .inr fun _ => rfl
  · exact .inr fun _ => by simp [Main.engaged, (Call.main_stepFail hs).1]
  · exact .inr fun hk => hmain ▸ hk

/-- Without overlap, two calls are never engaged at once. -/
theorem engaged_unique (hr : system.ReachableVia NoOverlap s) (hne : c ≠ d) :
    ¬ ((s.comp c).main.engaged = true ∧ (s.comp d).main.engaged = true) := by
  have hI : Interleaving.Holds (fun _ _ => True)
      (fun k l : Call => ¬ (k.main.engaged = true ∧ l.main.engaged = true)) s := by
    refine Interleaving.invariant (P := calls) ?_ trivial ?_ ?_ ?_ ?_ hr
    · exact fun k l h hc => h ⟨hc.2, hc.1⟩
    · simp [Call.init, Main.engaged, Main.owns, Main.closing]
    · exact fun _ _ _ _ _ _ _ _ _ => trivial
    · intro s i a g k j hs hI hG hact hj
      refine ⟨trivial, fun hboth => ?_⟩
      rcases Call.engaged_of_act hact with ⟨rfl, hstart, hclear⟩ | hmono
      -- the swap is won: nobody owns the flag, and by the guard nobody is closing
      · have hclosing : (s.comp j).main.closing = false := hG hstart j
        have howns : (s.comp j).main.owns = true := by
          have := hboth.2
          simpa [Main.engaged, hclosing] using this
        have := upgrading_of_owns hs.reachable howns
        simp [this] at hclear
      · exact hI.2 i j hj.symm ⟨hmono hboth.1, hboth.2⟩
    · exact fun _ _ _ _ _ _ => trivial
  exact hI.2 c d hne

/-- **Only one upgrade at a time**, in every run in which no call is made while
another one has cleared the flag and not returned: while a call is between winning
the swap and returning, no other call is, and no `wait_child` of another call is
still running. -/
theorem single_upgrade (hr : system.ReachableVia NoOverlap s)
    (hc : (s.comp c).main.inside = true) (hne : d ≠ c) :
    (s.comp d).main.inside = false ∧ (s.comp d).waitChild.running = false := by
  have hex := engaged_unique hr hne
  have hceng := Main.engaged_of_inside hc
  constructor
  · by_contra hin
    exact hex ⟨Main.engaged_of_inside (by simpa using hin), hceng⟩
  · by_contra hrun
    have hm := (coherent_of_reachable hr.reachable d).main
    exact hex ⟨hm.engaged_of_running (by simpa using hrun), hceng⟩

/-- After one step of the first call: it is under way, the second is not. -/
theorem single_upgrade_first :
    ∃ s, system.ReachableVia NoOverlap s ∧ (s.comp 0).main.inside = true ∧
      (s.comp 1).main.inside = false ∧ (s.comp 1).waitChild.running = false := by
  have hstep : ∃ s, system.step Sys.init (.act 0 .main) = some s
      ∧ (s.comp 0).main.inside = true := ⟨_, rfl, rfl⟩
  obtain ⟨s, hs, hin⟩ := hstep
  have hG : NoOverlap Sys.init (.act 0 .main) := fun _ _ => rfl
  have hr : system.ReachableVia NoOverlap s := .step (.init rfl) hG hs
  exact ⟨s, hr, hin, single_upgrade hr hin (by decide)⟩

/-- Call `0` has cleared the flag after its child declared itself ready, and its
`wait_child` is asleep; call `1` wins the flag and spawns a second child. -/
def overlappingRun : List Event :=
  launch 0 ++ declareReady 0 ++ clearFlag 0 ++ List.replicate 7 (.act 1 .main)

/-- Two upgrades can be under way at once: here a second child has been spawned while
`wait_child` of the first call is still running. -/
theorem two_upgrades_at_once :
    ∃ s, system.Reachable s ∧ (s.comp 0).main.inside = true ∧ (s.comp 1).main.inside = true ∧
      (s.comp 1).child = .running ∧ (s.comp 0).waitChild.running = true := by
  obtain ⟨s, hs, hp⟩ := TransitionSystem.exists_run system Sys.init
    overlappingRun (fun s => (s.comp 0).main.inside = true
      ∧ (s.comp 1).main.inside = true ∧ (s.comp 1).child = .running
      ∧ (s.comp 0).waitChild.running = true) (by decide +kernel)
  exact ⟨s, TransitionSystem.reachable_of_run reachable_init hs, of_decide_eq_true hp⟩

/-! ## Release -/

/-- Calls are made one after another: a call starts only when all others have not
been made or have returned.  A call that has panicked, as when a thread cannot be started, has
not returned: no call starts after it. -/
def OneAtATime (s : Sys) : Event → Prop
  | .act c .main => (s.comp c).main = .start →
      ∀ d, d ≠ c → (s.comp d).main = .start ∨ (s.comp d).main.result.isSome = true
  | _ => True

/-- Every call that has been made has returned. -/
def Sys.Idle (s : Sys) : Prop :=
  ∀ c, (s.comp c).main = .start ∨ (s.comp c).main.result.isSome = true

/-- A set-up step of the call failed and the call returned its error. -/
def Main.setupFailed : Main → Bool
  | .aborted _ _ => true
  | _ => false

/-- A call that owns the flag although it is over failed in its set-up. -/
theorem Main.setupFailed_of_owns {m : Main} (hown : m.owns = true)
    (hover : m = .start ∨ m.result.isSome = true) : m.setupFailed = true := by
  cases m <;> simp_all [Main.owns, Main.result, Main.setupFailed]

/-- **The flag is set only while some call owns it.** -/
theorem exists_owner (hr : system.Reachable s) (hup : s.shared.upgrading = true) :
    ∃ c, (s.comp c).main.owns = true := by
  refine hr.invariant (I := fun s => s.shared.upgrading = true →
    ∃ c, (s.comp c).main.owns = true) ?_ ?_ hup
  · rintro s rfl
    simp
  · rintro s e s' - hI hs hup
    rcases step_cases hs with ⟨c, a, g, k, -, hact, rfl⟩ | ⟨ms, -, rfl⟩
    · rcases Call.act_flag hact with ⟨-, -, hk, -⟩ | ⟨res, -, -, rfl⟩ | ⟨rfl, hk⟩
      · exact ⟨c, by simp [hk, Main.owns]⟩
      · cases hup
      · obtain ⟨d, hd⟩ := hI hup
        refine ⟨d, ?_⟩
        by_cases hdc : d = c
        · subst hdc
          simpa [hk] using hd
        · simpa [hdc] using hd
    · exact hI hup

/-- A call that failed in its set-up is over. -/
theorem Call.main_of_setupFailed {g g' : Shared} {k k' : Call} {a : Act}
    (h : k.act g a = some (g', k')) (hk : k.main.setupFailed = true) : k'.main = k.main := by
  cases hm : k.main with
  | aborted p msg =>
    rcases Call.act_main_cases h with ⟨-, hs⟩ | ⟨-, msg, -, hs⟩ | ⟨-, hmain⟩
    · simp [Call.stepMain, hm] at hs
    · simp [Call.stepFail, hm] at hs
    · rw [hmain, hm]
  | _ => simp [hm, Main.setupFailed] at hk

/-- Set-up failures stay on record. -/
theorem setupFailed_step {e : Event} (hs : system.step s e = some s')
    (hd : (s.comp d).main.setupFailed = true) : (s'.comp d).main.setupFailed = true := by
  rcases step_cases hs with ⟨c, a, g, k, -, hact, rfl⟩ | ⟨ms, -, rfl⟩
  · by_cases hdc : d = c
    · subst hdc
      simpa [Call.main_of_setupFailed hact hd] using hd
    · simpa [hdc] using hd
  · exact hd

/-- A call becomes refused by losing the swap. -/
theorem Call.refused_of_act {g g' : Shared} {k k' : Call} {a : Act}
    (h : k.act g a = some (g', k')) (hk : k'.main = .refused) :
    k.main = .refused ∨ (a = .main ∧ k.main = .start ∧ g.upgrading = true) := by
  rcases Call.act_main_cases h with ⟨ha, hs⟩ | ⟨-, msg, -, hs⟩ | ⟨-, hmain⟩
  · unfold Call.stepMain at hs
    cases hm : k.main with
    | start =>
      simp only [hm] at hs
      split at hs <;> cases hs
      · rename_i hup
        exact .inr ⟨ha, rfl, hup⟩
      · cases hk
    | setup p =>
      simp only [hm, Option.some.injEq, Prod.mk.injEq] at hs
      obtain ⟨-, rfl⟩ := hs
      cases p <;> cases hk
    | store res =>
      simp only [hm] at hs
      cases hs
      cases hk
    | joinReady | joinChild res | joinSend res =>
      simp only [hm] at hs
      split at hs <;> cases hs <;> cases hk
    | _ => simp [hm] at hs
  · have := (Call.main_stepFail hs).2
    simp [hk, Main.owns] at this
  · exact .inl (hmain ▸ hk)

/-- A call is refused only after the set-up of another one has failed. -/
theorem setupFailed_of_refused (hr : system.ReachableVia OneAtATime s)
    (hc : (s.comp c).main = .refused) : ∃ d, (s.comp d).main.setupFailed = true := by
  refine hr.invariant (I := fun s => ∀ c, (s.comp c).main = .refused →
    ∃ d, (s.comp d).main.setupFailed = true) ?_ ?_ c hc
  · rintro s rfl c hc
    cases hc
  · intro s e s' hs₀ hI hG hs c hc
    suffices h : ∃ d, (s.comp d).main.setupFailed = true by
      obtain ⟨d, hd⟩ := h
      exact ⟨d, setupFailed_step hs hd⟩
    rcases step_cases hs with ⟨i, a, g, k, rfl, hact, rfl⟩ | ⟨ms, -, rfl⟩
    · by_cases hci : c = i
      · subst hci
        simp only [Function.update_self] at hc
        rcases Call.refused_of_act hact hc with hc | ⟨rfl, hstart, hup⟩
        · exact hI c hc
        -- the flag was set, and by the guard its owner is over
        · obtain ⟨d, hd⟩ := exists_owner hs₀.reachable hup
          have hdc : d ≠ c := by
            rintro rfl
            simp [hstart, Main.owns] at hd
          exact ⟨d, Main.setupFailed_of_owns hd (hG hstart d hdc)⟩
      · simp only [Function.update_of_ne hci] at hc
        exact hI c hc
    · exact hI c hc

/-- **The lock is released exactly when no set-up step fails**: when calls are made
one after another and all have returned, the flag is free and none of them was
refused if and only if none of them failed in its set-up. -/
theorem lock_released_iff (hr : system.ReachableVia OneAtATime s) (hidle : s.Idle) :
    (s.shared.upgrading = false ∧ ∀ c, (s.comp c).main ≠ .refused)
      ↔ ∀ c, (s.comp c).main.setupFailed = false := by
  constructor
  · rintro ⟨hfree, -⟩ c
    by_contra hfail
    have hown : (s.comp c).main.owns = true := by
      cases hm : (s.comp c).main <;> simp_all [Main.setupFailed, Main.owns]
    rw [upgrading_of_owns hr.reachable hown] at hfree
    cases hfree
  · intro hok
    refine ⟨?_, fun c hc => ?_⟩
    · by_contra hup
      obtain ⟨c, hc⟩ := exists_owner hr.reachable (by simpa using hup)
      have := Main.setupFailed_of_owns hc (hidle c)
      rw [hok c] at this
      cases this
    · obtain ⟨d, hd⟩ := setupFailed_of_refused hr hc
      rw [hok d] at hd
      cases hd

/-- A run in which only call `0` acts meets `OneAtATime`. -/
theorem oneAtATime_of_solo {es : List Event}
    (hes : ∀ e ∈ es, ∀ c a, e = .act c a → c = 0) (hr : system.ReachableVia OneAtATime s)
    (hsolo : ∀ d, d ≠ 0 → s.comp d = Call.init) (hrun : system.run s es = some s') :
    system.ReachableVia OneAtATime s' ∧ ∀ d, d ≠ 0 → s'.comp d = Call.init := by
  induction es generalizing s with
  | nil =>
    cases hrun
    exact ⟨hr, hsolo⟩
  | cons e es ih =>
    rw [TransitionSystem.run_cons, Option.bind_eq_some_iff] at hrun
    obtain ⟨t, ht, hrest⟩ := hrun
    have hG : OneAtATime s e := by
      cases e with
      | env ms => trivial
      | act c a =>
        obtain rfl := hes _ List.mem_cons_self c a rfl
        cases a with
        | main => exact fun _ d hd => .inl (by rw [hsolo d hd]; rfl)
        | _ => trivial
    refine ih (fun e' he' => hes e' (List.mem_cons_of_mem _ he')) (.step hr hG ht) ?_ hrest
    intro d hd
    rcases step_cases ht with ⟨c, a, g, k, rfl, -, rfl⟩ | ⟨ms, -, rfl⟩
    · obtain rfl := hes _ List.mem_cons_self c a rfl
      simpa [hd] using hsolo d hd
    · exact hsolo d hd

/-- After an accepted upgrade the flag is free. -/
theorem lock_released_accepted :
    ∃ s, system.run Sys.init acceptedRun = some s ∧ s.Idle ∧
      ((s.shared.upgrading = false ∧ ∀ c, (s.comp c).main ≠ .refused)
        ↔ ∀ c, (s.comp c).main.setupFailed = false) := by
  obtain ⟨s, hs, hp⟩ := TransitionSystem.exists_run system Sys.init
    acceptedRun (fun s => (s.comp 0).main.result = some (.ok ()))
    (by decide +kernel)
  have hres := of_decide_eq_true hp
  obtain ⟨hr, hsolo⟩ := oneAtATime_of_solo
    (by simp [acceptedRun, launch, declareReady, clearFlag, wakeAndReturn]) (.init rfl)
    (fun d _ => rfl) hs
  have hidle : s.Idle := by
    intro c
    by_cases hc : c = 0
    · exact .inr (by rw [hc, hres]; rfl)
    · exact .inl (by rw [hsolo c hc]; rfl)
  exact ⟨s, hs, hidle, lock_released_iff hr hidle⟩

/-- The pipe for the listeners cannot be created. -/
def exhaustedRun : List Event := [.act 0 .main, .act 0 (.fail "Too many open files")]

/-- A failed set-up step keeps the lock: the call has returned its error, the flag is
still set, and the next call, made when the first is over, is refused. -/
theorem failed_setup_keeps_lock :
    ∃ s, system.ReachableVia OneAtATime s ∧ s.Idle ∧
      (s.comp 0).main.result = some (.error (.notStarted "Too many open files")) ∧
      s.shared.upgrading = true ∧
      (s.comp 1).main.result = some (.error (.notStarted "Already in upgrade")) := by
  have hrun : ∃ t s, system.run Sys.init exhaustedRun = some t ∧
      system.step t (.act 1 .main) = some s ∧
      (t.comp 0).main.result = some (.error (.notStarted "Too many open files")) ∧
      s.comp 0 = t.comp 0 ∧ s.shared.upgrading = true ∧ (s.comp 1).main = .refused ∧
      ∀ d, s.comp (d + 2) = Call.init :=
    ⟨_, _, rfl, rfl, rfl, rfl, rfl, rfl, fun _ => rfl⟩
  obtain ⟨t, s, ht, hs, hres, h0, hup, h1, hrest⟩ := hrun
  obtain ⟨hr, hsolo⟩ := oneAtATime_of_solo (by simp [exhaustedRun]) (.init rfl)
    (fun d _ => rfl) ht
  have hG : OneAtATime t (.act 1 .main) := by
    intro _ d hd
    by_cases hd0 : d = 0
    · exact .inr (by rw [hd0, hres]; rfl)
    · exact .inl (by rw [hsolo d hd0]; rfl)
  refine ⟨s, .step hr hG hs, fun c => ?_, by rw [h0, hres], hup, by rw [h1]; rfl⟩
  match c with
  | 0 => exact .inr (by rw [h0, hres]; rfl)
  | 1 => exact .inr (by rw [h1]; rfl)
  | d + 2 => exact .inl (by rw [hrest d]; rfl)

end Executioner
