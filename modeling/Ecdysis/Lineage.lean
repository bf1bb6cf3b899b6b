/-
# A process and all that descend from it

The child that takes over runs a monitor of its own and is upgraded in its turn.  `Lineage`
is the tree of all processes that come from a first one in this way: each is a monitor with
its attempts (`Upgrader.World`), and the child of an attempt gets a monitor, over the
registry it has built, when its `ready` has written `OK`.  The monitors run side by side,
and each process may die at any moment, also between any two steps of an upgrade of its own.

* `one_in_charge` : of the processes that live and serve, any two are on one line of
  descent, and the elder waits for the attempt from which the younger descends; so one at a
  time takes triggers.  What this rests on is that no process dies between the beginning of
  an upgrade of its own and the moment in which its own parent has seen it alive
  (`Lineage.seenFirst`); otherwise the parent starts over beside its grandchild
  (`taken_over_twice`).
* `service_continues` : over any number of generations, a socket that every child is handed
  before it calls `ready` is open in a process that has not passed it on, unless that
  process was told to stop or has died.
-/
import Ecdysis.MonitorProgress
import Ecdysis.Succession
import Ecdysis.SystemdView

open Executioner

/-! ## What stays of a child -/

namespace Executioner

/-- A child that lives goes on living until it exits; a `kill` only marks it. -/
theorem Call.alive_act {g g' : Shared} {k k' : Call} {a : Act} (hk : k.Coherent)
    (h : k.act g a = some (g', k')) (halive : k.child.alive = true) :
    k'.child.alive = true ∨ a = .child .exit := by
  rcases Call.act_cases h with
    ⟨-, hs⟩ | ⟨-, ⟨msg, -, hs⟩ | ⟨-, hs⟩ | ⟨-, hs⟩ | ⟨err, -, hs⟩ | ⟨x, rfl, hs⟩⟩
  · left
    rcases Call.ends_stepMain hk hs with ⟨-, -, hsame⟩ | ⟨-, hrun, -, -⟩
    · rw [hsame]
      exact halive
    · rw [hrun]
      rfl
  · left
    unfold Call.stepFail at hs
    split at hs <;> cases hs
    exact halive
  · left
    rw [(Call.stepWaitChild_eq_some hs).1]
    exact halive
  · left
    unfold Call.stepWaitReady at hs
    split at hs
    · split at hs
      · cases hs
        exact halive
      · split at hs <;> cases hs
        exact halive
    all_goals cases hs
  · left
    unfold Call.stepSend at hs
    split at hs <;> cases hs
    exact halive
  · obtain ⟨-, -, ⟨b, -, -, hsame, -⟩ | ⟨-, hsame, -⟩ | ⟨rfl, -, -⟩⟩ :=
      Call.stepChild_eq_some hs
    · exact .inl (hsame ▸ halive)
    · exact .inl (hsame ▸ halive)
    · exact .inr rfl

namespace Family

variable {F F' : Family} {e : Event} {c : ℕ}

/-- So does a child that uses this library. -/
theorem Sound.alive_step (hF : F.Sound) (h : F.step e = some F')
    (halive : (F.sys.comp c).child.alive = true) :
    (F'.sys.comp c).child.alive = true ∨ e = .exit c := by
  rcases step_eq_some h with ⟨e', s, rfl, hchild, hs, rfl⟩ | ⟨d, rfl, -, -, rfl⟩ |
    ⟨d, a, s, p, hs, rfl, hcases⟩
  · rcases step_cases hs with ⟨d, a, g', k', rfl, hact, rfl⟩ | ⟨ms, rfl, rfl⟩
    · by_cases hd : c = d
      · subst hd
        simp only [Function.update_self]
        rcases Call.alive_act (coherent_of_reachable hF.sys c) hact halive with hlives | rfl
        · exact .inl hlives
        · cases hchild
      · exact .inl (by simpa only [Function.update_of_ne hd] using halive)
    · exact .inl halive
  · exact .inl halive
  · obtain ⟨k', hk', rfl⟩ := step_child hs
    by_cases hd : c = d
    · subst hd
      simp only [Function.update_self]
      have hact : (F.sys.comp c).act F.sys.shared (.child a) = some (F.sys.shared, k') := by
        simp [Call.act, hk']
      rcases Call.alive_act (coherent_of_reachable hF.sys c) hact halive with hlives | ha
      · exact .inl hlives
      · cases ha
        rcases hcases with ⟨_, _, -, hx, -⟩ | ⟨-, hx, -⟩ | ⟨_, -, hx, -⟩ | ⟨rfl, -⟩
        · cases hx
        · cases hx
        · cases hx
        · exact .inr rfl
    · exact .inl (by simpa only [Function.update_of_ne hd] using halive)

/-- A child that has dropped its ready pipe after `ready` writes nothing more to it. -/
theorem Sound.notified_step (hF : F.Sound) (h : F.step e = some F')
    (hp : F.prog c = .notified) :
    F'.prog c = .notified ∧ (F'.sys.comp c).written = (F.sys.comp c).written := by
  rcases step_eq_some h with ⟨e', s, rfl, hchild, hs, rfl⟩ | ⟨d, rfl, -, hfresh, rfl⟩ |
    ⟨d, a, s, p, hs, rfl, hcases⟩
  · refine ⟨hp, ?_⟩
    rcases step_cases hs with ⟨d, a, g', k', rfl, hact, rfl⟩ | ⟨ms, rfl, rfl⟩
    · by_cases hd : c = d
      · subst hd
        have ha : ∀ x, a ≠ .child x := by
          rintro x rfl
          cases hchild
        simp only [Function.update_self]
        rcases Call.ends_act (coherent_of_reachable hF.sys c) ha hact with
          ⟨hw, -⟩ | ⟨hunborn, -⟩
        · exact hw
        · exact absurd hunborn ((hF.facts c).born (by simp [hp]))
      · simp only [Function.update_of_ne hd]
    · rfl
  · by_cases hd : c = d
    · subst hd
      cases hp.symm.trans hfresh
    · exact ⟨by simpa only [Function.update_of_ne hd] using hp, rfl⟩
  · obtain ⟨k', hk', rfl⟩ := step_child hs
    by_cases hd : c = d
    · subst hd
      rcases hcases with ⟨_, _, -, -, hprog, -⟩ | ⟨-, -, hprog, -⟩ | ⟨_, -, -, hprog, -⟩ |
        ⟨-, ha, rfl⟩
      · cases hp.symm.trans hprog
      · cases hp.symm.trans hprog
      · cases hp.symm.trans hprog
      · refine ⟨by simpa only [Function.update_self] using hp, ?_⟩
        simp only [Function.update_self]
        obtain ⟨-, -, ⟨b, hb, -⟩ | ⟨-, -, hw⟩ | ⟨-, -, hw⟩⟩ := Call.stepChild_eq_some hk'
        · cases hb.symm.trans ha
        · exact hw
        · exact hw
    · exact ⟨by simpa only [Function.update_of_ne hd] using hp,
        by simp only [Function.update_of_ne hd]⟩

end Family

end Executioner

/-- After `ready` has closed what was not claimed, nothing is left to claim. -/
theorem Life.emptied_step {s s' : Life} {e : Life.Event} (hwf : s.proc.WF)
    (h : s.step e = some s') (hs : s.ready = true → s.proc.inheritedFds = [])
    (hready : s'.ready = true) : s'.proc.inheritedFds = [] := by
  have hkeep : s.ready = true → s'.proc.inheritedFds = [] := by
    intro hold
    refine List.eq_nil_iff_forall_not_mem.mpr fun li hli => ?_
    have hli := (evolves_step hwf h).inherited li hli
    rw [hs hold] at hli
    cases hli.1
  rcases step_eq_some h with ⟨_, _, _, -, -, -, rfl⟩ | ⟨_, _, _, _, -, -, -, rfl⟩ |
    ⟨_, _, -, -, rfl⟩ | ⟨_, -, -, rfl⟩ | ⟨-, rfl⟩ | ⟨-, rfl⟩
  all_goals first | exact hkeep hready | rfl

theorem Life.Claimed.step {s s' : Life} {e : Life.Event} {file : ℕ} (hs : s.Claimed file)
    (h : s.step e = some s') : s'.Claimed file := by
  obtain ⟨k, hk⟩ := hs
  rcases step_eq_some h with ⟨_, _, _, -, -, -, rfl⟩ | ⟨_, _, _, _, -, -, -, rfl⟩ |
    ⟨_, _, -, -, rfl⟩ | ⟨_, -, -, rfl⟩ | ⟨-, rfl⟩ | ⟨-, rfl⟩
  · exact ⟨k, List.mem_append_left _ hk⟩
  all_goals exact ⟨k, hk⟩

namespace Upgrader

/-! ## The tree of monitors -/

/-- The `ready` of the child of attempt `n` has returned `Ok`. -/
def World.readied (w : World) (n : ℕ) : Bool :=
  n < w.attempts ∧ w.family.prog n = .notified ∧ (w.family.sys.comp n).written = okBytes

/-- The monitors of all processes that come from a first one, which is named `[]`; the
child of attempt `n` of the process `a` is named `n :: a`.  No two clocks are compared, so
each process has its own. -/
structure Lineage where
  monitors : List ℕ → Option World

namespace Lineage

/-- What happens: an event in the world of the process `a`, or the child of its attempt `n`
goes on to await its own monitor, with the triggers it has registered. -/
inductive Event
  | own (a : List ℕ) (e : World.Event)
  | start (n : ℕ) (a : List ℕ) (triggers : List (Trigger × ExitCondition)) (systemd : Bool)

/-- The process runs; the first one does as long as it takes steps. -/
def alive (t : Lineage) : List ℕ → Bool
  | [] => true
  | n :: a => (t.monitors a).any fun w => (w.family.sys.comp n).child.alive

/-- Which events of its world the process `a` can take part in: a dead one takes no steps of
its own, while its children go on; and the registry of a child that has its own monitor is
in the world of that one. -/
def permits (t : Lineage) (a : List ℕ) : World.Event → Bool
  | .family (.thread (.env _)) => true
  | .family (.ready _) | .family (.notify _) | .family (.close _) | .family (.exit _) => true
  | .kid n _ => (t.monitors (n :: a)).isNone
  | _ => t.alive a

/-- The process `a` is at `w`. -/
def set (t : Lineage) (a : List ℕ) (w : World) : Lineage :=
  ⟨Function.update t.monitors a (some w)⟩

/-- One step. -/
def step (t : Lineage) : Event → Option Lineage
  | .own a e =>
    (t.monitors a).bind fun w =>
      if t.permits a e then (w.step e).map (t.set a) else none
  | .start n a triggers systemd =>
    (t.monitors a).bind fun w =>
      if w.readied n ∧ t.alive (n :: a) ∧ (t.monitors (n :: a)).isNone then
        (w.kids n).map fun life =>
          t.set (n :: a) (.init life.proc triggers (if systemd then some [] else none))
      else none

/-- A first process with its monitor, and nobody else. -/
def init (w : World) : Lineage := ⟨fun a => if a = [] then some w else none⟩

end Lineage

/-- A process and all that descend from it, in every interleaving. -/
def lineage (parent : Proc) (triggers : List (Trigger × ExitCondition))
    (notifier : Option (List Notice)) : TransitionSystem Lineage Lineage.Event where
  Init := fun t => parent.WF ∧ parent.inheritedFds = [] ∧
    t = .init (.init parent triggers notifier)
  step := Lineage.step

/-! ## One monitor of many -/

namespace World

variable {w w' : World} {parent : Proc} {triggers : List (Trigger × ExitCondition)}
  {notifier : Option (List Notice)} {e : Event} {n : ℕ}

theorem alive_of_step (hw : w.family.Sound) (h : w.step e = some w')
    (halive : (w.family.sys.comp n).child.alive = true) :
    (w'.family.sys.comp n).child.alive = true ∨ e = .family (.exit n) := by
  rcases family_of_step h with hsame | ⟨e', rfl, hstep⟩
  · exact .inl (hsame ▸ halive)
  · exact (hw.alive_step hstep halive).imp_right (congrArg _)

/-- Attempts are not taken back. -/
theorem attempts_le_of_step (h : w.step e = some w') : w.attempts ≤ w'.attempts := by
  by_cases he : ∃ io, e = .monitor io
  · obtain ⟨io, rfl⟩ := he
    rcases attempts_monitor h with heq | ⟨-, -, heq⟩ <;> omega
  · exact (step_beside h (by simpa using he)).2.2.2.2.ge

/-- Nor is a `ready` that has returned `Ok`. -/
theorem readied_of_step (hw : w.family.Sound) (h : w.step e = some w')
    (hn : w.readied n = true) : w'.readied n = true := by
  simp only [readied, decide_eq_true_eq] at hn ⊢
  obtain ⟨hlt, hprog, hwritten⟩ := hn
  refine ⟨hlt.trans_le (attempts_le_of_step h), ?_⟩
  rcases family_of_step h with hsame | ⟨e', rfl, hstep⟩
  · rw [hsame]
    exact ⟨hprog, hwritten⟩
  · obtain ⟨hprog', hwritten'⟩ := hw.notified_step hstep hprog
    exact ⟨hprog', hwritten'.trans hwritten⟩

/-- A child that was found failing after its `ready` had returned is dead. -/
theorem not_alive_of_error {err : UpgradeError} (hw : w.family.Sound)
    (hn : w.readied n = true) (herr : w.result n = some (.error err)) :
    (w.family.sys.comp n).child.alive = false := by
  simp only [readied, decide_eq_true_eq] at hn
  have hmute := mute_of_error (m := .extendTimeouts) hw herr
  simpa [speaks, hn] using hmute

/-- All attempts but the last have failed, and in its loop `monitor` awaits the last or has
seen it fail too. -/
structure Tried (w : World) : Prop where
  rejected : w.Rejected
  earlier : ∀ n, n + 1 < w.attempts → ∃ err, w.result n = some (.error err)

theorem Tried.step (hw : w.Tried) (h : w.step e = some w') : w'.Tried := by
  have hkeep : ∀ n, (∃ err, w.result n = some (.error err)) →
      ∃ err, w'.result n = some (.error err) :=
    fun n ⟨err, herr⟩ => ⟨err, result_step h herr⟩
  by_cases he : ∃ io, e = .monitor io
  · obtain ⟨io, rfl⟩ := he
    refine ⟨hw.rejected.turn h (turn_of_monitor h).1, fun n hn => hkeep n ?_⟩
    rcases attempts_monitor h with heq | ⟨reason, hpoint, heq⟩
    · exact hw.earlier n (heq ▸ hn)
    · -- the attempt that begins here finds all others failed
      rcases hw.rejected (by rw [hpoint]; rfl) n (by omega) with ⟨reason', hawaiting⟩ | hfailed
      · cases hpoint.symm.trans hawaiting
      · exact hfailed
  · obtain ⟨hpoint, -, -, -, hattempts⟩ := step_beside h (by simpa using he)
    refine ⟨fun hserving n hn => ?_, fun n hn => hkeep n (hw.earlier n (hattempts ▸ hn))⟩
    rw [hpoint] at hserving ⊢
    exact (hw.rejected hserving n (hattempts ▸ hn)).imp_right (hkeep n)

theorem tried_of_reachable (hr : (world parent triggers notifier).Reachable w) : w.Tried := by
  refine hr.invariant ?_ fun w e w' _ hw h => hw.step h
  rintro w ⟨-, -, rfl⟩
  exact ⟨fun _ n hn => absurd hn (Nat.not_lt_zero n), fun n hn => absurd hn (Nat.not_lt_zero _)⟩

/-- What a step does to the registry of a child. -/
theorem kid_cases (h : w.step e = some w') (n : ℕ) :
    w'.kids n = w.kids n ∨ (∃ p, w'.kids n = some (.init p)) ∨ w'.kids n = none ∨
      ∃ life e' life', w.kids n = some life ∧ life.step e' = some life' ∧
        w'.kids n = some life' := by
  by_cases he : ∃ io, e = .monitor io
  · obtain ⟨io, rfl⟩ := he
    left
    rcases monitor_eq_some h with ⟨_, _, _, _, rfl⟩ | ⟨_, _, _, rfl⟩ | ⟨_, _, _, rfl⟩ |
      ⟨_, _, rfl⟩ <;> rfl
  cases e with
  | monitor io => exact absurd ⟨io, rfl⟩ he
  | family e' =>
    simp only [World.step] at h
    split at h
    · obtain ⟨F, -, rfl⟩ := Option.map_eq_some_iff.mp h
      rcases w.kidsAfter_cases e' n with heq | ⟨-, -, heq⟩ | ⟨-, heq⟩
      · exact .inl heq
      · cases hspawn : w.parent.spawnChild (w.sent n) with
        | none => exact .inr (.inr (.inl (by simpa [hspawn] using heq)))
        | some p => exact .inr (.inl ⟨p, by simpa [hspawn] using heq⟩)
      · cases hlife : w.kids n with
        | none => exact .inr (.inr (.inl (by simpa [hlife] using heq)))
        | some life =>
          exact .inr (.inr (.inr ⟨life, .ready, _, rfl, rfl, heq.trans (by rw [hlife]; rfl)⟩))
    · cases h
  | kid m e' =>
    simp only [World.step] at h
    split at h
    · obtain ⟨life', hbind, rfl⟩ := Option.map_eq_some_iff.mp h
      obtain ⟨life, hlife, hstep⟩ := Option.bind_eq_some_iff.mp hbind
      by_cases hn : n = m
      · subst hn
        exact .inr (.inr (.inr ⟨life, e', life', hlife, hstep, Function.update_self ..⟩))
      · exact .inl (Function.update_of_ne hn ..)
    · cases h
  | arrive i a | returns i =>
    cases h
    exact .inl rfl
  | listen r =>
    simp only [World.step] at h
    split at h
    · obtain ⟨_, -, rfl⟩ := Option.map_eq_some_iff.mp h
      exact .inl rfl
    · cases h
  | openFd fd d | closeFd fd =>
    simp only [World.step] at h
    split at h
    · cases h
      exact .inl rfl
    · cases h

/-- What a child that has called `ready` did not claim is closed, and stays closed. -/
theorem emptied_of_reachable (hr : (world parent triggers notifier).Reachable w) :
    ∀ n life, w.kids n = some life → life.ready = true → life.proc.inheritedFds = [] := by
  refine hr.invariant (I := fun w => ∀ n life, w.kids n = some life → life.ready = true →
    life.proc.inheritedFds = []) ?_ ?_
  · rintro w ⟨-, -, rfl⟩ n life hlife
    cases hlife
  · intro w e w' hr hw h n life hlife hready
    rcases kid_cases h n with hsame | ⟨p, hinit⟩ | hnone | ⟨life₀, e', life', hlife₀, hstep, heq⟩
    · exact hw n life (hsame ▸ hlife) hready
    · rw [hinit] at hlife
      cases hlife
      cases hready
    · rw [hnone] at hlife
      cases hlife
    · obtain rfl : life' = life := by simpa [heq] using hlife
      have hkeeps := (sound_of_reachable hr).children.keeps n life₀ hlife₀
      exact Life.emptied_step hkeeps.sound.wf hstep (hw n life₀ hlife₀) hready

/-- As long as `quit` has not closed the registry, entries in use stay, with their files. -/
theorem evolves_of_step (hw : w.Sound parent triggers) (h : w.step e = some w')
    (hopen : w'.closedFor = none) : w.closedFor = none ∧ w.parent.Evolves w'.parent := by
  by_cases he : ∃ io, e = .monitor io
  · obtain ⟨io, rfl⟩ := he
    rcases monitor_eq_some h with ⟨ts, nt, p, hmoves, rfl⟩ | ⟨ec, reason, hpoint, rfl⟩ |
      ⟨ec, reason, hpoint, rfl⟩ | ⟨reason, hpoint, rfl⟩
    · exact ⟨hmoves.closedFor hw.course hopen, .refl _⟩
    · cases hopen
    · rw [show closedFor { w with runState := some ec, point := afterQuit reason ec } = some ec
        from closedFor_of_leaving (leaving_afterQuit reason ec)] at hopen
      cases hopen
    · have hserving : w.point.serving = true := by rw [hpoint]; rfl
      exact ⟨(closedFor_of_serving hserving).trans (hw.course.runState hserving), .refl _⟩
  obtain ⟨hpoint, -, -, hrun, -⟩ := step_beside h (by simpa using he)
  refine ⟨by simpa only [closedFor, hpoint, hrun] using hopen, ?_⟩
  cases e with
  | monitor io => exact absurd ⟨io, rfl⟩ he
  | arrive i a | returns i =>
    cases h
    exact .refl _
  | family e' | kid n e' =>
    simp only [World.step] at h
    split at h
    · obtain ⟨_, -, rfl⟩ := Option.map_eq_some_iff.mp h
      exact .refl _
    · cases h
  | listen r =>
    simp only [World.step] at h
    split at h
    · rename_i havoids
      obtain ⟨⟨res, p⟩, hlisten, rfl⟩ := Option.map_eq_some_iff.mp h
      rw [Proc.listen_eq] at hlisten
      exact hw.stock.wf.evolves_listenWith (Creation.not_mem_of_avoids havoids) hlisten
    · cases h
  | openFd fd d =>
    simp only [World.step] at h
    split at h
    · rename_i hfd
      cases h
      exact Proc.evolves_openFd hfd
    · cases h
  | closeFd fd =>
    simp only [World.step] at h
    split at h
    · rename_i hfd
      cases h
      exact Proc.evolves_closeFdQuiet hfd
    · cases h

theorem quitting_of_closedFor {ec : ExitCondition} (h : w.closedFor = some ec) :
    w.quitting = some ec := by
  unfold quitting
  split
  · rename_i hpoint
    simp [closedFor, hpoint] at h
  · exact h

/-- What a child has claimed before it called `ready` stays claimed. -/
theorem claimed_of_step {file : ℕ} (hw : w'.Sound parent triggers) (h : w.step e = some w')
    (hcalled : (w'.family.prog n).called = true) (hclaimed : w.Claimed n file) :
    w'.Claimed n file := by
  obtain ⟨life, hlife, hready⟩ := hw.children.called n hcalled
  obtain ⟨life₀, hlife₀, hfile⟩ := hclaimed
  rcases kid_cases h n with hsame | ⟨p, hinit⟩ | hnone | ⟨life₁, e', life', hlife₁, hstep, heq⟩
  · exact ⟨life₀, hsame.trans hlife₀, hfile⟩
  · cases hinit.symm.trans hlife
    cases hready
  · cases hnone.symm.trans hlife
  · obtain rfl : life₁ = life₀ := by simpa [hlife₁] using hlife₀
    exact ⟨life', heq, hfile.step hstep⟩

end World

/-! ## The tree grows -/

namespace Lineage

variable {t t' : Lineage} {e : Event} {a b : List ℕ} {w v : World} {n : ℕ}
  {parent : Proc} {triggers : List (Trigger × ExitCondition)} {notifier : Option (List Notice)}

theorem step_eq_some (h : t.step e = some t') :
    (∃ a e' w w', e = .own a e' ∧ t.monitors a = some w ∧ t.permits a e' = true ∧
      w.step e' = some w' ∧ t' = t.set a w') ∨
    (∃ n a triggers systemd w life, e = .start n a triggers systemd ∧ t.monitors a = some w ∧
      w.readied n = true ∧ t.alive (n :: a) = true ∧ t.monitors (n :: a) = none ∧
      w.kids n = some life ∧
      t' = t.set (n :: a) (.init life.proc triggers (if systemd then some [] else none))) := by
  cases e with
  | own a e' =>
    obtain ⟨w, hw, h⟩ := Option.bind_eq_some_iff.mp h
    split at h
    · rename_i hpermits
      obtain ⟨w', hstep, rfl⟩ := Option.map_eq_some_iff.mp h
      exact .inl ⟨a, e', w, w', rfl, hw, hpermits, hstep, rfl⟩
    · cases h
  | start n a triggers systemd =>
    obtain ⟨w, hw, h⟩ := Option.bind_eq_some_iff.mp h
    split at h
    · rename_i hcond
      obtain ⟨life, hlife, rfl⟩ := Option.map_eq_some_iff.mp h
      exact .inr ⟨n, a, triggers, systemd, w, life, rfl, hw, hcond.1, hcond.2.1,
        by simpa using hcond.2.2, hlife, rfl⟩
    · cases h

theorem set_eq_some : (t.set a w).monitors b = some v ↔
    b = a ∧ v = w ∨ b ≠ a ∧ t.monitors b = some v := by
  by_cases hb : b = a
  · subst hb
    simp [set, eq_comm]
  · simp [set, hb]

theorem alive_cons_iff : t.alive (n :: a) = true ↔
    ∃ w, t.monitors a = some w ∧ (w.family.sys.comp n).child.alive = true := by
  simp [alive, Option.any_eq_true]

/-- Every process is where a monitor can be, and was started by one whose child it is. -/
structure Inv (t : Lineage) : Prop where
  root : (t.monitors []).isSome = true
  world : ∀ a w, t.monitors a = some w → ∃ p ts nt, (world p ts nt).Reachable w
  parent : ∀ n a v, t.monitors (n :: a) = some v →
    ∃ w, t.monitors a = some w ∧ w.readied n = true

theorem Inv.family (h : t.Inv) (hw : t.monitors a = some w) : w.family.Sound := by
  obtain ⟨p, ts, nt, hr⟩ := h.world a w hw
  exact (World.sound_of_reachable hr).children.family

theorem Inv.tried (h : t.Inv) (hw : t.monitors a = some w) : w.Tried := by
  obtain ⟨p, ts, nt, hr⟩ := h.world a w hw
  exact World.tried_of_reachable hr

/-- What the process `a` does keeps the tree. -/
theorem Inv.own {e : World.Event} {w' : World} (h : t.Inv) (hw : t.monitors a = some w)
    (hstep : w.step e = some w') : (t.set a w').Inv where
  root := by
    by_cases ha : a = []
    · subst ha
      simp [set]
    · simpa [set, Function.update_of_ne (Ne.symm ha)] using h.root
  world := by
    intro b v hv
    rcases set_eq_some.mp hv with ⟨rfl, rfl⟩ | ⟨-, hv⟩
    · obtain ⟨p, ts, nt, hr⟩ := h.world _ _ hw
      exact ⟨p, ts, nt, hr.step hstep⟩
    · exact h.world b v hv
  parent := by
    intro n b v hv
    have hold : ∃ v₀, t.monitors (n :: b) = some v₀ := by
      rcases set_eq_some.mp hv with ⟨rfl, -⟩ | ⟨-, hv⟩
      · exact ⟨w, hw⟩
      · exact ⟨v, hv⟩
    obtain ⟨v₀, hv₀⟩ := hold
    obtain ⟨u, hu, hn⟩ := h.parent n b v₀ hv₀
    by_cases hb : b = a
    · subst hb
      obtain rfl : w = u := by simpa [hw] using hu
      exact ⟨w', set_eq_some.mpr (.inl ⟨rfl, rfl⟩),
        World.readied_of_step (h.family hw) hstep hn⟩
    · exact ⟨u, set_eq_some.mpr (.inr ⟨hb, hu⟩), hn⟩

/-- A child that gets its own monitor does. -/
theorem Inv.start {life : Life} {nt : Option (List Notice)} (h : t.Inv)
    (hw : t.monitors a = some w) (hn : w.readied n = true) (hnone : t.monitors (n :: a) = none)
    (hlife : w.kids n = some life) : (t.set (n :: a) (.init life.proc triggers nt)).Inv where
  root := by simpa [set] using h.root
  world := by
    intro b v hv
    rcases set_eq_some.mp hv with ⟨rfl, rfl⟩ | ⟨-, hv⟩
    · obtain ⟨p, ts, nt', hr⟩ := h.world a w hw
      have hsound := World.sound_of_reachable hr
      simp only [World.readied, decide_eq_true_eq] at hn
      -- its `ready` has closed what it has not claimed
      have hready : life.ready = true := by
        obtain ⟨life', hlife', hready⟩ := hsound.children.called n (by rw [hn.2.1]; rfl)
        obtain rfl : life = life' := by simpa [hlife] using hlife'
        exact hready
      exact ⟨life.proc, triggers, nt, .init ⟨(hsound.children.keeps n life hlife).sound.wf,
        World.emptied_of_reachable hr n life hlife hready, rfl⟩⟩
    · exact h.world b v hv
  parent := by
    intro m b v hv
    rcases set_eq_some.mp hv with ⟨heq, -⟩ | ⟨-, hv⟩
    · obtain ⟨rfl, rfl⟩ := List.cons.inj heq
      exact ⟨w, set_eq_some.mpr (.inr ⟨by simp, hw⟩), hn⟩
    · obtain ⟨u, hu, hm⟩ := h.parent m b v hv
      refine ⟨u, set_eq_some.mpr (.inr ⟨?_, hu⟩), hm⟩
      rintro rfl
      cases hnone.symm.trans hu

theorem Inv.step (h : t.Inv) (hs : t.step e = some t') : t'.Inv := by
  rcases step_eq_some hs with ⟨a, e', w, w', -, hw, -, hstep, rfl⟩ |
    ⟨n, a, ts, sd, w, life, -, hw, hn, -, hnone, hlife, rfl⟩
  · exact h.own hw hstep
  · exact h.start hw hn hnone hlife

theorem inv_of_reachable {G : Lineage → Event → Prop}
    (hr : (lineage parent triggers notifier).ReachableVia G t) : t.Inv := by
  refine hr.invariant ?_ fun t e t' _ h _ hs => h.step hs
  rintro t ⟨hp, hinh, rfl⟩
  refine ⟨rfl, fun a w hw => ?_, fun n a v hv => by simp [init] at hv⟩
  have hw : (if a = [] then some (World.init parent triggers notifier) else none) = some w := hw
  split at hw
  · cases hw
    exact ⟨parent, triggers, notifier, .init ⟨hp, hinh, rfl⟩⟩
  · cases hw

/-! ## One process is in charge -/

/-- No process dies between the beginning of an upgrade of its own and the moment in which
the attempt it comes from has a result. -/
def seenFirst (t : Lineage) : Event → Bool
  | .own a (.family (.exit n)) =>
    match t.monitors a, t.monitors (n :: a) with
    | some w, some v => v.attempts = 0 ∨ (w.result n).isSome
    | _, _ => true
  | _ => true

/-- A process that is dead has made no attempt of its own, or was seen alive. -/
def Seen (t : Lineage) : Prop :=
  ∀ n a w v, t.monitors a = some w → t.monitors (n :: a) = some v →
    (w.family.sys.comp n).child.alive = false → v.attempts = 0 ∨ w.result n = some (.ok ())

/-- **Step lemma**: the process `a` goes on. -/
theorem Seen.own {e : World.Event} {w' : World} (h : t.Seen) (hinv : t.Inv)
    (hw : t.monitors a = some w) (hpermits : t.permits a e = true)
    (hG : t.seenFirst (.own a e) = true) (hstep : w.step e = some w') : (t.set a w').Seen := by
  intro n b u v hu hv hdead
  by_cases hb : b = a
  · -- the parent goes on: if the child dies of this, the guard says what it has done
    subst hb
    obtain rfl : u = w' := by simpa [set] using hu.symm
    have hv : t.monitors (n :: b) = some v := by simpa [set] using hv
    have hkeep : w.result n = some (.ok ()) → u.result n = some (.ok ()) :=
      World.result_step hstep
    cases halive : (w.family.sys.comp n).child.alive with
    | false => exact (h n b w v hw hv halive).imp_right hkeep
    | true =>
      rcases World.alive_of_step (hinv.family hw) hstep halive with hlives | rfl
      · cases hlives.symm.trans hdead
      · simp only [seenFirst, hw, hv, decide_eq_true_eq] at hG
        refine hG.imp_right fun hsome => hkeep ?_
        obtain ⟨res, hres⟩ := Option.isSome_iff_exists.mp hsome
        match res with
        | .ok () => exact hres
        | .error err =>
          obtain ⟨w₁, hw₁, hn⟩ := hinv.parent n b v hv
          obtain rfl : w = w₁ := by simpa [hw] using hw₁
          cases halive.symm.trans (World.not_alive_of_error (hinv.family hw) hn hres)
  · have hparent : t.monitors b = some u := by simpa [set, hb] using hu
    by_cases hnb : n :: b = a
    · -- the child goes on: it is dead, so it begins nothing
      subst hnb
      obtain rfl : v = w' := by simpa [set] using hv.symm
      have hdead' : t.alive (n :: b) = false := by simpa [alive, hparent] using hdead
      refine (h n b u w hparent hw hdead).imp_left fun hzero => ?_
      have hne : ∀ io, e ≠ .monitor io := by
        rintro io rfl
        exact absurd (hdead'.symm.trans hpermits) (by simp)
      exact (World.step_beside hstep hne).2.2.2.2.trans hzero
    · exact h n b u v hparent (by simpa [set, hnb] using hv) hdead

/-- **Step lemma**: a child gets its own monitor. -/
theorem Seen.start {p : Proc} {ts : List (Trigger × ExitCondition)} {nt : Option (List Notice)}
    (h : t.Seen) (hinv : t.Inv) (hnone : t.monitors (n :: a) = none) :
    (t.set (n :: a) (.init p ts nt)).Seen := by
  intro m b u v hu hv hdead
  by_cases hmb : m :: b = n :: a
  · left
    rw [hmb] at hv
    obtain rfl : v = .init p ts nt := by simpa [set] using hv.symm
    rfl
  · have hv : t.monitors (m :: b) = some v := by simpa [set, hmb] using hv
    obtain ⟨u₀, hu₀, -⟩ := hinv.parent m b v hv
    have hb : b ≠ n :: a := by
      rintro rfl
      cases hnone.symm.trans hu₀
    exact h m b u v (by simpa [set, hb] using hu) hv hdead

theorem seen_of_reachable
    (hr : (lineage parent triggers notifier).ReachableVia (fun t e => t.seenFirst e = true) t) :
    t.Seen := by
  refine hr.invariant ?_ fun t e t' hr h hG hs => ?_
  · rintro t ⟨-, -, rfl⟩ n a w v - hv
    simp [init] at hv
  · have hinv := inv_of_reachable hr
    rcases step_eq_some hs with ⟨a, e', w, w', rfl, hw, hpermits, hstep, rfl⟩ |
      ⟨n, a, ts, sd, w, life, -, -, -, -, hnone, -, rfl⟩
    · exact h.own hinv hw hpermits hG hstep
    · exact h.start hinv hnone

/-- The process runs, and its monitor is in its loop. -/
def Serves (t : Lineage) (a : List ℕ) : Prop :=
  t.alive a = true ∧ ∃ w, t.monitors a = some w ∧ w.point.serving = true

/-- Its monitor waits for the result of attempt `n`. -/
def Awaits (t : Lineage) (a : List ℕ) (n : ℕ) : Prop :=
  ∃ w reason, t.monitors a = some w ∧ w.point = .awaiting n reason

/-- The process has been started by an attempt. -/
def Present (t : Lineage) : List ℕ → Prop
  | [] => True
  | n :: a => ∃ w, t.monitors a = some w ∧ n < w.attempts

/-- The process gave up its attempt `n`. -/
def Failed (t : Lineage) (a : List ℕ) (n : ℕ) : Prop :=
  ∃ w err, t.monitors a = some w ∧ w.result n = some (.error err)

/-- The process serves, or it may still come to that: it has no monitor yet, and the attempt
it comes from has not failed. -/
def Acts (t : Lineage) (a : List ℕ) : Prop :=
  t.Serves a ∨ t.alive a = true ∧ t.monitors a = none ∧
    ∃ n b, a = n :: b ∧ t.Present a ∧ ¬ t.Failed b n

theorem Inv.present (h : t.Inv) (hw : t.monitors a = some w) : t.Present a := by
  cases a with
  | nil => trivial
  | cons n a =>
    obtain ⟨u, hu, hn⟩ := h.parent n a w hw
    simp only [World.readied, decide_eq_true_eq] at hn
    exact ⟨u, hu, hn.1⟩

/-- The processes are a line of succession. -/
def succession (hinv : t.Inv) (hseen : t.Seen) : Succession where
  present := t.Present
  serves := t.Acts
  awaits := t.Awaits
  failed := t.Failed
  parent := fun ⟨w, hw, _⟩ => hinv.present hw
  serves_present := by
    rintro a (⟨-, w, hw, -⟩ | ⟨-, -, -, -, -, hpresent, -⟩)
    · exact hinv.present hw
    · exact hpresent
  settled := by
    rintro a n hacts ⟨w, hw, hn⟩
    have hserving : w.point.serving = true := by
      rcases hacts with ⟨-, w', hw', hserving⟩ | ⟨-, hnone, -⟩
      · obtain rfl : w = w' := by simpa [hw] using hw'
        exact hserving
      · cases hw.symm.trans hnone
    rcases (hinv.tried hw).rejected hserving n hn with ⟨reason, hpoint⟩ | ⟨err, herr⟩
    · exact .inl ⟨w, reason, hw, hpoint⟩
    · exact .inr ⟨w, err, hw, herr⟩
  earlier := by
    rintro a m n - ⟨w, hw, hn⟩ hlt
    obtain ⟨err, herr⟩ := (hinv.tried hw).earlier m (by omega)
    exact ⟨w, err, hw, herr⟩
  gone := by
    rintro a n hfailed (⟨halive, v, hv, -⟩ | ⟨-, -, m, b, heq, -, hnot⟩)
    · obtain ⟨w, err, hw, herr⟩ := hfailed
      obtain ⟨w', hw', hn⟩ := hinv.parent n a v hv
      obtain rfl : w = w' := by simpa [hw] using hw'
      have hdead := World.not_alive_of_error (hinv.family hw) hn herr
      simp [alive, hw, hdead] at halive
    · obtain ⟨rfl, rfl⟩ := List.cons.inj heq
      exact hnot hfailed
  childless := by
    rintro a n m ⟨w, err, hw, herr⟩ ⟨v, hv, hm⟩
    obtain ⟨w', hw', hn⟩ := hinv.parent n a v hv
    obtain rfl : w = w' := by simpa [hw] using hw'
    rcases hseen n a w v hw hv (World.not_alive_of_error (hinv.family hw) hn herr) with
      hzero | hok
    · omega
    · cases hok.symm.trans herr

end Lineage

open Lineage in
/-- **One process is in charge**, over any number of generations, failed attempts and
crashes, as long as no process dies between the beginning of an upgrade of its own and the
moment in which its own parent has seen it alive.

Of two processes that live and serve, one descends from the other, which waits for the
attempt that leads there.  So one at a time is in its loop and waits for none. -/
theorem one_in_charge {t : Lineage} {parent : Proc} {triggers : List (Trigger × ExitCondition)}
    {notifier : Option (List Notice)}
    (hr : (lineage parent triggers notifier).ReachableVia (fun t e => t.seenFirst e = true) t) :
    (∀ a b, t.Serves a → t.Serves b → a = b ∨ (∃ n, n :: a <:+ b ∧ t.Awaits a n) ∨
      ∃ n, n :: b <:+ a ∧ t.Awaits b n) ∧
    ∀ a b, t.Serves a → t.Serves b → (∀ n, ¬ t.Awaits a n) → (∀ n, ¬ t.Awaits b n) → a = b := by
  have hline : ∀ a b, t.Serves a → t.Serves b → a = b ∨ (∃ n, n :: a <:+ b ∧ t.Awaits a n) ∨
      ∃ n, n :: b <:+ a ∧ t.Awaits b n := fun _ _ ha hb =>
    (succession (inv_of_reachable hr) (seen_of_reachable hr)).one_line (.inl ha) (.inl hb)
  refine ⟨hline, fun a b ha hb hna hnb => ?_⟩
  rcases hline a b ha hb with heq | ⟨n, -, hawaits⟩ | ⟨n, -, hawaits⟩
  · exact heq
  · exact absurd hawaits (hna n)
  · exact absurd hawaits (hnb n)

/-! ### A child that is upgraded at once -/

/-- The process takes triggers. -/
def Lineage.polls (t : Lineage) (a : List ℕ) : Bool :=
  t.alive a && (t.monitors a).any fun w => w.point matches .polling

theorem Lineage.polls_eq_true {t : Lineage} {a : List ℕ} (h : t.polls a = true) :
    t.alive a = true ∧ ∃ w, t.monitors a = some w ∧ w.point = .polling := by
  simp only [polls, Bool.and_eq_true, Option.any_eq_true] at h
  obtain ⟨halive, w, hw, hpoint⟩ := h
  refine ⟨halive, w, hw, ?_⟩
  split at hpoint
  · assumption
  · cases hpoint

theorem Lineage.serves_of_polls {t : Lineage} {a : List ℕ} (h : t.polls a = true) :
    t.Serves a ∧ ∀ n, ¬ t.Awaits a n := by
  obtain ⟨halive, w, hw, hpoint⟩ := polls_eq_true h
  refine ⟨⟨halive, w, hw, by rw [hpoint]; rfl⟩, ?_⟩
  rintro n ⟨w', reason, hw', hawaits⟩
  obtain rfl : w = w' := by simpa [hw] using hw'
  cases hpoint.symm.trans hawaits

/-- The process is told to upgrade, and its child becomes ready. -/
def untilReady : List World.Event :=
  beginUpgrade ++ ([.family (.ready 0), .family (.notify 0), .family (.notify 0),
    .family (.close 0)] : List World.Event)

/-- The child takes triggers, while its parent has yet to look at it. -/
def beside : List Lineage.Event :=
  untilReady.map (.own []) ++ [.start 0 [] twoSignals false, .own [0] (.monitor none)]

theorem one_in_charge_beside :
    ∃ t, (lineage listeningProc twoSignals none).ReachableVia
        (fun t e => t.seenFirst e = true) t ∧
      t.Serves [] ∧ t.Serves [0] ∧ t.Awaits [] 0 := by
  obtain ⟨t, hrun, hp⟩ := Option.map_eq_some_iff.mp (show
    ((lineage listeningProc twoSignals none).runVia Lineage.seenFirst (.init listeningInit)
      beside).map (fun t => ((t.monitors []).any fun w => w.point.serving) && t.polls [0]) =
        some true by decide +kernel)
  have hr := TransitionSystem.reachableVia_of_runVia
    (M := lineage listeningProc twoSignals none) (.init ⟨wf_listeningProc, rfl, rfl⟩) hrun
  simp only [Bool.and_eq_true, Option.any_eq_true] at hp
  obtain ⟨⟨w, hw, hserving⟩, hpolls⟩ := hp
  obtain ⟨hserves, hnone⟩ := Lineage.serves_of_polls hpolls
  refine ⟨t, hr, ⟨rfl, w, hw, hserving⟩, hserves, ?_⟩
  rcases (one_in_charge hr).1 [] [0] ⟨rfl, w, hw, hserving⟩ hserves with
    heq | ⟨n, hn, hawaits⟩ | ⟨n, -, hawaits⟩
  · cases heq
  · obtain rfl : n = 0 := by simpa using hn.eq_of_length rfl
    exact hawaits
  · exact absurd hawaits (hnone n)

/-- The child is upgraded in its turn and exits before its parent looks at it. -/
def takenOver : List Lineage.Event :=
  untilReady.map (.own []) ++ [.start 0 [] twoSignals false] ++
  (beginUpgrade ++ becomeReady ++ quit).map (.own [0]) ++
  [.start 0 [0] twoSignals false, .own [0, 0] (.monitor none)] ++
  (([.family (.exit 0)] : List World.Event) ++
    threads (([.act 0 .waitReady, .act 0 .waitReady] : List Executioner.Event) ++ clearFlag 0 ++
      ([.env 500, .act 0 .waitChild, .act 0 .waitChild, .act 0 .main, .act 0 .main] :
        List Executioner.Event)) ++
    ([.monitor none, .monitor none] : List World.Event)).map (.own [])

/-- **What happens otherwise**: to the first process, a child that has been replaced before
it was seen alive is a child that has died, and it takes triggers again, beside the process
that has replaced its child. -/
theorem taken_over_twice :
    ∃ t, (lineage listeningProc twoSignals none).Reachable t ∧ t.polls [] = true ∧
      t.polls [0, 0] = true := by
  obtain ⟨t, hrun, hp⟩ := TransitionSystem.exists_run (lineage listeningProc twoSignals none)
    (.init listeningInit) takenOver (fun t => t.polls [] && t.polls [0, 0]) (by decide +kernel)
  rw [Bool.and_eq_true] at hp
  exact ⟨t, TransitionSystem.reachable_of_run (.init ⟨wf_listeningProc, rfl, rfl⟩) hrun, hp⟩

/-! ## The service goes on -/

namespace Lineage

variable {t t' : Lineage} {e : Event} {a b : List ℕ} {w v : World} {n : ℕ} {file : ℕ}
  {parent : Proc} {triggers : List (Trigger × ExitCondition)} {notifier : Option (List Notice)}

/-- No child calls `ready` before one of its requests has been handed the socket `file`. -/
def isHanded (file : ℕ) (t : Lineage) : Event → Bool
  | .own a (.family (.ready n)) =>
    (t.monitors a).all fun w =>
      (w.kids n).any fun life => life.log.any fun x => x.2 = .handed (some file)
  | _ => true

/-- Whoever has not been told to quit holds the file, and so does every child that has
called `ready`. -/
structure Carries (file : ℕ) (t : Lineage) : Prop where
  holds : ∀ a w, t.monitors a = some w → w.closedFor = none → w.parent.Holds file
  claimed : ∀ a w n, t.monitors a = some w → (w.family.prog n).called = true →
    w.Claimed n file

/-- **Step lemma**: the process `a` goes on. -/
theorem Carries.own {e : World.Event} {w' : World} (h : t.Carries file) (hinv : t.Inv)
    (hw : t.monitors a = some w) (hG : t.isHanded file (.own a e) = true)
    (hstep : w.step e = some w') : (t.set a w').Carries file := by
  obtain ⟨p, ts, nt, hr⟩ := hinv.world a w hw
  have hsound := World.sound_of_reachable hr
  refine ⟨fun b v hv hopen => ?_, fun b v n hv hcalled => ?_⟩
  · rcases set_eq_some.mp hv with ⟨rfl, rfl⟩ | ⟨-, hv⟩
    · obtain ⟨hopen₀, hevolves⟩ := World.evolves_of_step hsound hstep hopen
      exact hevolves.holds (h.holds _ w hw hopen₀)
    · exact h.holds b v hv hopen
  · rcases set_eq_some.mp hv with ⟨rfl, rfl⟩ | ⟨-, hv⟩
    · refine World.claimed_of_step (World.sound_of_reachable (hr.step hstep)) hstep hcalled ?_
      rcases World.family_of_step hstep with hsame | ⟨e', rfl, hfamily⟩
      · exact h.claimed _ w n hw (hsame ▸ hcalled)
      · rcases (Family.called_step hfamily n).mp hcalled with hold | rfl
        · exact h.claimed _ w n hw hold
        · simp only [isHanded, hw, Option.all_some] at hG
          exact World.claimed_of_any hG
    · exact h.claimed b v n hv hcalled

/-- **Step lemma**: a child gets its own monitor, over what it has claimed. -/
theorem Carries.start {life : Life} {ts : List (Trigger × ExitCondition)}
    {nt : Option (List Notice)} (h : t.Carries file) (hinv : t.Inv)
    (hw : t.monitors a = some w) (hn : w.readied n = true) (hlife : w.kids n = some life) :
    (t.set (n :: a) (.init life.proc ts nt)).Carries file := by
  refine ⟨fun b v hv hopen => ?_, fun b v m hv hcalled => ?_⟩
  · rcases set_eq_some.mp hv with ⟨-, rfl⟩ | ⟨-, hv⟩
    · obtain ⟨p, ts', nt', hr⟩ := hinv.world a w hw
      simp only [World.readied, decide_eq_true_eq] at hn
      obtain ⟨life', hlife', hfile⟩ := h.claimed a w n hw (by rw [hn.2.1]; rfl)
      obtain rfl : life = life' := by simpa [hlife] using hlife'
      exact ((World.sound_of_reachable hr).children.keeps n life hlife).claimed file hfile
    · exact h.holds b v hv hopen
  · rcases set_eq_some.mp hv with ⟨-, rfl⟩ | ⟨-, hv⟩
    · cases hcalled
    · exact h.claimed b v m hv hcalled

theorem carries_of_reachable (hfile : parent.Holds file)
    (hr : (lineage parent triggers notifier).ReachableVia
      (fun t e => t.isHanded file e = true) t) : t.Carries file := by
  refine hr.invariant ?_ fun t e t' hr h hG hs => ?_
  · rintro t ⟨-, -, rfl⟩
    have hroot : ∀ a w, (init (.init parent triggers notifier)).monitors a = some w →
        w = .init parent triggers notifier := by
      intro a w hw
      simp only [init] at hw
      split at hw <;> cases hw
      rfl
    refine ⟨fun a w hw _ => ?_, fun a w n hw hcalled => ?_⟩
    · rw [hroot a w hw]
      exact hfile
    · rw [hroot a w hw] at hcalled
      cases hcalled
  · have hinv := inv_of_reachable hr
    rcases step_eq_some hs with ⟨a, e', w, w', rfl, hw, -, hstep, rfl⟩ |
      ⟨n, a, ts, sd, w, life, -, hw, hn, -, -, hlife, rfl⟩
    · exact h.own hinv hw hG hstep
    · exact h.start hinv hw hn hlife

/-- There is a last generation. -/
theorem depth_of_reachable {G : Lineage → Event → Prop}
    (hr : (lineage parent triggers notifier).ReachableVia G t) :
    ∃ N, ∀ a w, t.monitors a = some w → a.length ≤ N := by
  refine hr.invariant (I := fun t => ∃ N, ∀ a w, t.monitors a = some w → a.length ≤ N) ?_
    fun t e t' _ h _ hs => ?_
  · rintro t ⟨-, -, rfl⟩
    refine ⟨0, fun a w hw => ?_⟩
    simp only [init] at hw
    split at hw
    · simp [*]
    · cases hw
  · obtain ⟨N, hN⟩ := h
    rcases step_eq_some hs with ⟨a, e', w, w', rfl, hw, -, hstep, rfl⟩ |
      ⟨n, a, ts, sd, w, life, -, hw, -, -, -, -, rfl⟩
    · refine ⟨N, fun b v hv => ?_⟩
      rcases set_eq_some.mp hv with ⟨rfl, -⟩ | ⟨-, hv⟩
      · exact hN _ w hw
      · exact hN b v hv
    · refine ⟨N + 1, fun b v hv => ?_⟩
      rcases set_eq_some.mp hv with ⟨rfl, -⟩ | ⟨-, hv⟩
      · have := hN a w hw
        simpa using this
      · exact (hN b v hv).trans (Nat.le_succ N)

/-- `quit` of the process `a` has closed its registry for the child of attempt `n`. -/
def Passes (t : Lineage) (a : List ℕ) (n : ℕ) : Prop :=
  ∃ w, t.monitors a = some w ∧ w.closedFor = some .upgrade ∧ w.attempts = n + 1

/-- `quit` of the process has closed its registry because it was told to stop. -/
def Stopped (t : Lineage) (a : List ℕ) : Prop :=
  ∃ w ec, t.monitors a = some w ∧ w.closedFor = some ec ∧ ec ≠ .upgrade

/-- The process runs and has the file open; before its monitor is there, its registry is
with the attempt it comes from. -/
def HasOpen (t : Lineage) (file : ℕ) (a : List ℕ) : Prop :=
  t.alive a = true ∧
    ((∃ w, t.monitors a = some w ∧ w.parent.HasOpen file) ∨
      t.monitors a = none ∧ ∃ n b w life, a = n :: b ∧ t.monitors b = some w ∧
        w.kids n = some life ∧ life.proc.HasOpen file)

end Lineage

open Lineage in
/-- **The service goes on**, over any number of generations: of a socket that the first
process holds, and that every child is handed before it calls `ready`, every process holds a
descriptor until `quit` closes its registry; and at any time one of the processes to which
everything has been passed on, the last of them, has it open, unless it was told to stop or
has died. -/
theorem service_continues {t : Lineage} {file : ℕ} {parent : Proc}
    {triggers : List (Trigger × ExitCondition)} {notifier : Option (List Notice)}
    (hfile : parent.Holds file)
    (hr : (lineage parent triggers notifier).ReachableVia
      (fun t e => t.isHanded file e = true) t) :
    (∀ a w, t.monitors a = some w → w.closedFor = none → w.parent.HasOpen file) ∧
    ∃ a, Succession.Line t.Passes a ∧ (∀ n, ¬ t.Passes a n) ∧
      (t.alive a = true → t.HasOpen file a ∨ t.Stopped a) := by
  have hinv := inv_of_reachable hr
  have hcarries := carries_of_reachable hfile hr
  refine ⟨fun a w hw hopen => (hcarries.holds a w hw hopen).hasOpen, ?_⟩
  obtain ⟨N, hN⟩ := depth_of_reachable hr
  have hbound : ∀ a, Succession.Line t.Passes a → a.length ≤ N + 1 := by
    intro a ha
    cases ha with
    | root => exact Nat.zero_le _
    | next ha hpasses =>
      obtain ⟨w, hw, -⟩ := hpasses
      have := hN _ w hw
      simpa using this
  obtain ⟨a, hline, hlast⟩ := Succession.exists_last hbound
  refine ⟨a, hline, hlast, fun halive => ?_⟩
  cases hw : t.monitors a with
  | some w =>
    cases hclosed : w.closedFor with
    | none => exact .inl ⟨halive, .inl ⟨w, hw, (hcarries.holds a w hw hclosed).hasOpen⟩⟩
    | some ec =>
      refine .inr ⟨w, ec, hw, hclosed, ?_⟩
      rintro rfl
      -- who has closed its registry for an upgrade has passed it on
      obtain ⟨p, ts, nt, hreach⟩ := hinv.world a w hw
      have hquit := World.quitting_of_closedFor hclosed
      obtain ⟨n, hn, -⟩ := (World.sound_of_reachable hreach).course.accepted hquit
      exact hlast n ⟨w, hw, hclosed, hn⟩
  | none =>
    cases hline with
    | root =>
      have := hinv.root
      rw [hw] at this
      cases this
    | @next b n hline hpasses =>
      obtain ⟨w, hb, hclosed, hn⟩ := hpasses
      obtain ⟨p, ts, nt, hreach⟩ := hinv.world b w hb
      have hsound := World.sound_of_reachable hreach
      obtain ⟨m, hm, hok⟩ := hsound.course.accepted (World.quitting_of_closedFor hclosed)
      obtain rfl : n = m := by omega
      -- the child that was accepted has called `ready`, so it has claimed the file
      obtain ⟨life, hlife, hclaim⟩ :=
        hcarries.claimed b w n hb (hsound.children.family.called_of_ok hok)
      have hholds := (hsound.children.keeps n life hlife).claimed file hclaim
      exact .inl ⟨halive, .inr ⟨hw, n, b, w, life, rfl, hb, hlife, hholds.hasOpen⟩⟩

/-- Two upgrades, one after the other. -/
def twice : List Lineage.Event :=
  (beginUpgrade ++ becomeReady).map (.own []) ++ [.start 0 [] twoSignals false] ++
  quit.map (.own []) ++ (beginUpgrade ++ becomeReady ++ quit).map (.own [0])

theorem service_continues_twice :
    ∃ t, (lineage listeningProc twoSignals none).Reachable t ∧
      Succession.Line t.Passes [0, 0] ∧
      ∃ a, Succession.Line t.Passes a ∧ (∀ n, ¬ t.Passes a n) ∧
        (t.alive a = true → t.HasOpen 7 a ∨ t.Stopped a) := by
  obtain ⟨t, hrun, hp⟩ := Option.map_eq_some_iff.mp (show
    ((lineage listeningProc twoSignals none).runVia (Lineage.isHanded 7) (.init listeningInit)
      twice).map (fun t => ((t.monitors []).any fun w =>
        w.closedFor = some .upgrade ∧ w.attempts = 1) && (t.monitors [0]).any fun w =>
          w.closedFor = some .upgrade ∧ w.attempts = 1) = some true by decide +kernel)
  have hr := TransitionSystem.reachableVia_of_runVia
    (M := lineage listeningProc twoSignals none) (.init ⟨wf_listeningProc, rfl, rfl⟩) hrun
  simp only [Bool.and_eq_true, Option.any_eq_true, decide_eq_true_eq] at hp
  obtain ⟨⟨w, hw, hclosed, hn⟩, v, hv, hclosed', hn'⟩ := hp
  have hline : Succession.Line t.Passes [0, 0] :=
    (Succession.Line.root.next ⟨w, hw, hclosed, hn⟩).next ⟨v, hv, hclosed', hn'⟩
  have hholds : listeningProc.Holds 7 := ⟨⟨4, .tcp loopback⟩, by simp [listeningProc], rfl⟩
  exact ⟨t, hr.reachable, hline, (service_continues hholds hr).2⟩

end Upgrader
