/-
# What the result of an upgrade says about the child

* `upgrade_ok_sound` : a call returns `Ok(())` only when its child's ready pipe
  delivered `OK` first, `wait_child` did not kill the child, and a `try_wait` made
  after these bytes were read saw the child running;
* `child_gone_of_error` : a call that returns an error has no live child, in every
  run in which no child closes its ready pipe, or writes something else to it,
  before it has written `OK` (`OkOnly`).  Without that restriction a child can live
  on after the upgrade has failed (`failed_upgrade_leaves_child`).
-/
import Ecdysis.UpgradeInvariant

namespace Executioner

variable {s : Sys} {c : ℕ}

/-! ## Success -/

/-- The two worker threads both reported success to a call that returned `Ok(())`. -/
theorem workers_ok_of_result (hr : system.Reachable s)
    (hok : (s.comp c).main.result = some (.ok ())) :
    (s.comp c).waitReady = .done (.ok ()) ∧ (s.comp c).waitChild = .done (.ok ()) := by
  have hm := (coherent_of_reachable hr c).main
  unfold Call.MainFacts at hm
  cases hmain : (s.comp c).main <;> simp_all [Main.result]

/-- A `try_wait` saw the child running after its ready pipe had delivered `OK`. -/
def Call.SeenReady (k : Call) : Prop :=
  ∃ before after, k.log = before ++ .tryWait true :: after ∧ (delivered before).take 2 = okBytes

/-- Who has been seen ready has delivered `OK`. -/
theorem Call.SeenReady.delivered {k : Call} (h : k.SeenReady) :
    (delivered k.log).take 2 = okBytes := by
  obtain ⟨before, after, hlog, hbefore⟩ := h
  have hlen : 2 ≤ (Executioner.delivered before).length := by
    have hlen := congrArg List.length hbefore
    simp only [List.length_take, okBytes, List.length_cons, List.length_nil] at hlen
    omega
  rw [hlog, delivered_append, List.take_append_of_le_length hlen]
  exact hbefore

/-- What the log of a call that returned `Ok(())` says: the pipe delivered `OK` and
nothing else, there was no `kill`, and the last poll came after the bytes. -/
theorem log_of_result_ok (hr : system.Reachable s)
    (hok : (s.comp c).main.result = some (.ok ())) :
    delivered (s.comp c).log = okBytes ∧ .kill ∉ (s.comp c).log ∧ (s.comp c).SeenReady := by
  obtain ⟨hready, hchild⟩ := workers_ok_of_result hr hok
  have hread := (coherent_of_reachable hr c).read
  have hwatch := (coherent_of_reachable hr c).watch
  rw [hready] at hread
  rw [hchild] at hwatch
  obtain ⟨hkill, before, hlog⟩ := hwatch
  have hdel : delivered (s.comp c).log = okBytes := hread
  have hbefore : delivered before = okBytes := by simpa [hlog] using hdel
  exact ⟨hdel, hkill, before, [], hlog, by rw [hbefore]; rfl⟩

/-- **Soundness of a successful upgrade**: for any number of concurrent calls and
any interleaving of their threads, their children and time, a call returns `Ok(())`
only if the first two bytes its ready pipe delivered were `OK`, its `wait_child` did
not kill the child, and some `try_wait` reported the child running after those bytes
had been read. -/
theorem upgrade_ok_sound (hr : system.Reachable s)
    (hok : (s.comp c).main.result = some (.ok ())) :
    (delivered (s.comp c).log).take 2 = okBytes ∧ .kill ∉ (s.comp c).log ∧
      ∃ before after, (s.comp c).log = before ++ .tryWait true :: after
        ∧ (delivered before).take 2 = okBytes := by
  obtain ⟨hdel, hkill, hseen⟩ := log_of_result_ok hr hok
  exact ⟨by rw [hdel]; rfl, hkill, hseen⟩

/-- Call `c` wins the flag and sets up; its `wait_child` falls asleep. -/
def launch (c : ℕ) : List Event :=
  List.replicate 10 (.act c .main) ++ ([.act c .waitChild, .act c .waitChild] : List Event)

/-- The child of call `c` declares itself ready and `wait_ready` reads it. -/
def declareReady (c : ℕ) : List Event :=
  [.act c (.child (.write 0x4F)), .act c (.child (.write 0x4B)), .act c .waitReady,
   .act c .waitReady]

/-- The main thread of call `c` joins `wait_ready` and clears the flag. -/
def clearFlag (c : ℕ) : List Event := [.act c .main, .act c .main]

/-- After 500 ms `wait_child` of call `c` finds the child alive and the flag cleared,
polls again, and the call returns. -/
def wakeAndReturn (c : ℕ) : List Event :=
  [.env 500, .act c .waitChild, .act c .waitChild, .act c .waitChild, .act c .waitChild,
   .act c (.send none), .act c .main, .act c .main]

/-- A call whose child declares itself ready within the first 500 ms. -/
def acceptedRun : List Event :=
  launch 0 ++ declareReady 0 ++ clearFlag 0 ++ wakeAndReturn 0

/-- The accepted call, and what its log says. -/
theorem upgrade_ok_sound_accepted :
    ∃ s, system.run Sys.init acceptedRun = some s ∧
      (s.comp 0).main.result = some (.ok ()) ∧ (delivered (s.comp 0).log).take 2 = okBytes ∧
      .kill ∉ (s.comp 0).log ∧
      ∃ before after, (s.comp 0).log = before ++ .tryWait true :: after
        ∧ (delivered before).take 2 = okBytes := by
  obtain ⟨s, hs, hres⟩ := TransitionSystem.exists_run system Sys.init
    acceptedRun (fun s => (s.comp 0).main.result = some (.ok ()))
    (by decide +kernel)
  have hok := of_decide_eq_true hres
  exact ⟨s, hs, hok, upgrade_ok_sound (TransitionSystem.reachable_of_run reachable_init hs) hok⟩

/-! ## Failure -/

/-- The condition on the children: what a child writes to its ready pipe begins with
`OK`, and it closes the pipe only afterwards (or by exiting). -/
def OkOnly (s : Sys) : Event → Prop
  | .act c (.child (.write b)) => ((s.comp c).written ++ [b]).take 2 <+: okBytes
  | .act c (.child .close) => (s.comp c).written.take 2 = okBytes
  | _ => True

/-- What a child that keeps to `OkOnly` has done so far. -/
def Call.Announces (k : Call) : Prop :=
  k.written.take 2 <+: okBytes ∧
    (k.child.alive = true → k.ready.writerOpen = true ∨ k.written.take 2 = okBytes)

/-- The workers keep `Announces`. -/
theorem Call.Announces.sameEnds {k k' : Call} (hk : k.Announces) (h : k.SameEnds k') :
    k'.Announces := by
  unfold Call.Announces at hk ⊢
  rw [h.written, h.writerOpen]
  exact ⟨hk.1, fun halive => hk.2 (h.alive halive)⟩

/-- A step of the main thread keeps `Announces`: the child it spawns has a fresh pipe. -/
theorem Call.Announces.stepMain {g g' : Shared} {k k' : Call} (hk : k.Announces)
    (hco : k.Coherent) (h : k.stepMain g = some (g', k')) : k'.Announces := by
  unfold Call.Announces at hk ⊢
  rcases Call.ends_stepMain hco h with ⟨hw, hr, hc⟩ | ⟨-, -, hw, hopen⟩
  · rw [hw, hr, hc]
    exact hk
  · rw [hw]
    exact ⟨List.nil_prefix, fun _ => .inl hopen⟩

/-- A child that keeps to `OkOnly` keeps `Announces`. -/
theorem Call.Announces.stepChild {k k' : Call} {a : ChildAct} (hk : k.Announces)
    (hwrite : ∀ b, a = .write b → (k.written ++ [b]).take 2 <+: okBytes)
    (hclose : a = .close → k.written.take 2 = okBytes) (h : k.stepChild a = some k') :
    k'.Announces := by
  unfold Call.Announces at hk ⊢
  obtain ⟨-, -, ⟨b, rfl, -, -, hw, hopen⟩ | ⟨rfl, -, hw⟩ | ⟨rfl, hdead, hw⟩⟩ :=
    Call.stepChild_eq_some h
  · rw [hw]
    exact ⟨hwrite b rfl, fun _ => .inl hopen⟩
  · rw [hw]
    exact ⟨hk.1, fun _ => .inr (hclose rfl)⟩
  · rw [hw, hdead]
    exact ⟨hk.1, fun halive => nomatch halive⟩

/-- **Step lemma**: every step of a run that keeps to `OkOnly` keeps `Announces`. -/
theorem Call.Announces.act {g g' : Shared} {k' : Call} {a : Act} (hr : system.Reachable s)
    (hk : (s.comp c).Announces) (hG : OkOnly s (.act c a))
    (h : (s.comp c).act g a = some (g', k')) : k'.Announces := by
  rcases Call.act_cases h with
    ⟨-, hs⟩ | ⟨-, ⟨msg, -, hs⟩ | ⟨-, hs⟩ | ⟨-, hs⟩ | ⟨err, -, hs⟩ | ⟨a, rfl, hs⟩⟩
  · exact hk.stepMain (coherent_of_reachable hr c) hs
  · unfold Call.stepFail at hs
    split at hs <;> cases hs
    exact hk
  · exact hk.sameEnds (Call.sameEnds_stepWaitChild hs)
  · exact hk.sameEnds (Call.sameEnds_stepWaitReady hs)
  · exact hk.sameEnds (Call.sameEnds_stepSend hs)
  · refine hk.stepChild ?_ ?_ hs
    · rintro b rfl
      exact hG
    · rintro rfl
      exact hG

/-- Every child of a run that keeps to `OkOnly` announces itself properly. -/
theorem announces_of_reachable (hr : system.ReachableVia OkOnly s) (c : ℕ) :
    (s.comp c).Announces := by
  refine Interleaving.local_invariant (P := calls) (L := Call.Announces) ?_ ?_ hr c
  · simp [Call.Announces, Call.init, Call.written, Child.alive]
  · exact fun s i a g k hs hk hG hact => hk.act hs.reachable hG hact

/-- **How an upgrade can fail although its child is alive**: only because the ready
pipe delivered two bytes other than `OK`, or ended before it had delivered two. -/
theorem pipe_of_error_alive (hr : system.Reachable s) {e : UpgradeError}
    (herr : (s.comp c).main.result = some (.error e)) (halive : (s.comp c).child.alive = true) :
    ((delivered (s.comp c).log).length = 2 ∧ delivered (s.comp c).log ≠ okBytes)
      ∨ ((delivered (s.comp c).log).length < 2 ∧ (s.comp c).ready = ⟨[], false⟩) := by
  have hco := coherent_of_reachable hr c
  have hm := hco.main
  have hborn := Child.alive.born halive
  unfold Call.MainFacts at hm
  cases hmain : (s.comp c).main with
  | returned res =>
    -- an error of `wait_child` means that the child has been reaped, so it is `wait_ready`'s
    rw [hmain] at hm herr
    cases herr
    obtain ⟨-, q, hq, ⟨hchild, rfl⟩ | ⟨e', hchild, -⟩⟩ := hm
    · have hread := hco.read
      rw [hq] at hread
      exact hread
    · have hwatch := hco.watch
      rw [hchild] at hwatch
      have hreaped : (s.comp c).child = .reaped := hwatch
      rw [hreaped] at halive
      cases halive
  | refused | aborted p msg =>
    rw [hmain] at hm
    exact absurd hm.2.2 hborn
  | _ => simp [hmain, Main.result] at herr

/-- **A failed upgrade leaves no child behind**, in every run in which the children
keep to `OkOnly`: when a call returns an error and had spawned a child, that child
has terminated. -/
theorem child_gone_of_error (hr : system.ReachableVia OkOnly s) {e : UpgradeError}
    (herr : (s.comp c).main.result = some (.error e)) (hborn : (s.comp c).child ≠ .unborn) :
    (s.comp c).child = .dead ∨ (s.comp c).child = .reaped := by
  have hdead : (s.comp c).child.alive ≠ true := by
    intro halive
    obtain ⟨hpre, hopen⟩ := announces_of_reachable hr c
    rcases pipe_of_error_alive hr.reachable herr halive with ⟨hlen, hne⟩ | ⟨hlen, hend⟩
    -- two bytes other than `OK` were delivered, but what was written begins with `OK`
    · have htake : (s.comp c).written.take 2 = delivered (s.comp c).log := by
        rw [Call.written, ← hlen, List.take_left]
      rw [htake] at hpre
      exact hne (hpre.eq_of_length (by rw [hlen]; rfl))
    -- the pipe ended early, but it is open until `OK` has been written
    · have hshort : ((s.comp c).written.take 2).length < 2 := by
        simp only [Call.written, hend, List.append_nil, List.length_take]
        omega
      rcases hopen halive with hopen | hok
      · simp [hend] at hopen
      · simp [hok, okBytes] at hshort
  cases hchild : (s.comp c).child <;> simp_all [Child.alive]

/-- A call whose child exits before it is ready. -/
def crashedRun : List Event :=
  launch 0 ++ ([.act 0 (.child .exit), .act 0 .waitReady] : List Event) ++ clearFlag 0 ++
  ([.env 500, .act 0 .waitChild, .act 0 .waitChild, .act 0 (.send (some "Broken pipe")),
    .act 0 .main, .act 0 .main] : List Event)

/-- The call whose child crashed: it fails, and the child has been collected. -/
theorem child_gone_of_error_crashed :
    ∃ s, system.ReachableVia OkOnly s ∧ (s.comp 0).main.result = some (.error .childExit) ∧
      ((s.comp 0).child = .dead ∨ (s.comp 0).child = .reaped) := by
  obtain ⟨s, hs, hp⟩ := TransitionSystem.exists_run system Sys.init
    crashedRun (fun s => (s.comp 0).main.result = some (.error .childExit)
      ∧ (s.comp 0).child ≠ .unborn) (by decide +kernel)
  obtain ⟨hres, hborn⟩ := of_decide_eq_true hp
  have hreach : system.ReachableVia OkOnly s := by
    refine TransitionSystem.reachableVia_of_run (.init rfl) ?_ hs
    simp [crashedRun, launch, clearFlag, OkOnly]
  exact ⟨s, hreach, hres, child_gone_of_error hreach hres hborn⟩

/-- A call whose child closes the ready pipe without having written to it (it drops
its `Ecdysis` without calling `ready()`) and keeps running. -/
def abandonedRun : List Event :=
  launch 0 ++ ([.act 0 (.child .close), .act 0 .waitReady] : List Event) ++ clearFlag 0 ++
  wakeAndReturn 0

/-- An upgrade can fail and leave its child running. -/
theorem failed_upgrade_leaves_child :
    ¬ ∀ (s : Sys) (c : ℕ) (e : UpgradeError), system.Reachable s →
        (s.comp c).main.result = some (.error e) → (s.comp c).child ≠ .unborn →
        (s.comp c).child = .dead ∨ (s.comp c).child = .reaped := by
  intro h
  obtain ⟨s, hs, hp⟩ := TransitionSystem.exists_run system Sys.init
    abandonedRun (fun s => (s.comp 0).main.result = some (.error .childExit)
      ∧ (s.comp 0).child = .running) (by decide +kernel)
  obtain ⟨hres, hchild⟩ := of_decide_eq_true hp
  have hgone := h s 0 .childExit (TransitionSystem.reachable_of_run reachable_init hs) hres
    (by simp [hchild])
  simp [hchild] at hgone

end Executioner
