/-
# What the monitor keeps

The invariant of the monitor beside its attempts and their children, over every
interleaving (`World.sound_of_reachable`).  It has three parts:

* `World.Course` : what the position of `monitor` says about the run state, the
  triggers and the results of the attempts; it is at `quit` for an upgrade only when
  its last attempt has succeeded.
* `World.Children` : a child that has called `ready` has closed what it did not claim,
  and every child holds in its registry what it has claimed.
* `World.Stock` : as long as `quit` has not closed the registry of the parent, the parent
  holds whatever any of its children has claimed or can claim, and its entries in use are
  those it started with and those the application added since.
-/
import Ecdysis.Upgrader

open Executioner

/-! ## What a child has claimed -/

namespace Life

variable {s s' : Life} {e : Event} {file : ℕ} {p q : Proc}

/-- The file was handed over to a request. -/
def Claimed (s : Life) (file : ℕ) : Prop := ∃ k, (k, .handed (some file)) ∈ s.log

/-- A step that claims a file finds it at an unclaimed entry, and registers it. -/
theorem claimed_step (h : s.step e = some s') (hclaimed : s'.Claimed file) :
    s.Claimed file ∨
      s'.proc.Holds file ∧ ∃ li ∈ s.proc.inheritedFds, s.proc.fileOf li.fd = some file := by
  obtain ⟨k, hk⟩ := hclaimed
  rcases step_eq_some h with ⟨r, res, p, rfl, havoids, hlisten, rfl⟩ |
    ⟨name, c, res, p, rfl, havoids, hpair, rfl⟩ | ⟨fd, d, rfl, hfd, rfl⟩ | ⟨fd, rfl, hfd, rfl⟩ |
    ⟨rfl, rfl⟩ | ⟨rfl, rfl⟩
  · rcases List.mem_append.mp hk with hk | hk
    · exact .inl ⟨k, hk⟩
    · have hanswer : p.answer res = .handed (some file) :=
        (congrArg Prod.snd (List.mem_singleton.mp hk)).symm
      match res with
      | .ok (.inherited, fd) =>
        obtain ⟨file', hfile', hholds, hli⟩ := Proc.listenWith_inherited hlisten
        rw [Proc.answer, hfile'] at hanswer
        cases hanswer
        exact .inr ⟨hholds, hli⟩
      | .ok (.created, fd) => cases hanswer
      | .error e => cases hanswer
  all_goals exact .inl ⟨k, hk⟩

/-- The registry is sound, and holds what has been claimed. -/
structure Keeps (s : Life) : Prop where
  sound : s.Sound
  claimed : ∀ file, s.Claimed file → s.proc.Holds file

theorem keeps_init (hp : p.WF) : (init p).Keeps :=
  ⟨⟨hp, List.nil_prefix⟩, fun _ ⟨_, hk⟩ => nomatch hk⟩

theorem Keeps.step (hs : s.Keeps) (h : s.step e = some s') : s'.Keeps := by
  refine ⟨hs.sound.step h, fun file hclaimed => ?_⟩
  rcases claimed_step h hclaimed with hold | ⟨hholds, -⟩
  · exact (evolves_step hs.sound.wf h).holds (hs.claimed file hold)
  · exact hholds

/-- What has been claimed, and what can be, the process `p` holds. -/
structure HeldBy (s : Life) (p : Proc) : Prop where
  inherited : ∀ li ∈ s.proc.inheritedFds, ∀ file, s.proc.fileOf li.fd = some file → p.Holds file
  claimed : ∀ file, s.Claimed file → p.Holds file

theorem HeldBy.step (hs : s.HeldBy p) (hwf : s.proc.WF) (h : s.step e = some s') :
    s'.HeldBy p := by
  refine ⟨fun li hli file hfile => ?_, fun file hclaimed => ?_⟩
  · obtain ⟨hold, heq⟩ := (evolves_step hwf h).inherited li hli
    exact hs.inherited li hold file (heq ▸ hfile)
  · rcases claimed_step h hclaimed with hold | ⟨-, li, hli, hfile⟩
    · exact hs.claimed file hold
    · exact hs.inherited li hli file hfile

theorem HeldBy.evolves (hs : s.HeldBy p) (h : p.Evolves q) : s.HeldBy q :=
  ⟨fun li hli file hfile => h.holds (hs.inherited li hli file hfile),
    fun file hclaimed => h.holds (hs.claimed file hclaimed)⟩

/-- A child started with entries of `p` can claim what `p` holds. -/
theorem heldBy_spawnChild {c : Proc} {fds : List ListenerInfo} (hfds : fds <+: p.usedFds)
    (h : p.spawnChild fds = some c) : (init c).HeldBy p := by
  obtain ⟨hinh, -, -, hfile⟩ := Proc.spawnChild_eq_some h
  refine ⟨fun li hli file hli' => ?_, fun _ ⟨_, hk⟩ => nomatch hk⟩
  have hli : li ∈ c.inheritedFds := hli
  rw [hinh] at hli
  obtain ⟨li₀, hli₀, rfl⟩ := List.mem_map.mp hli
  exact ⟨li₀, hfds.subset hli₀, (hfile li₀ hli₀).symm.trans hli'⟩

end Life

namespace Upgrader

/-! ## Triggers stay -/

/-- The list of triggers apart from what is waiting at them. -/
def sources (ts : List (Trigger × ExitCondition)) : List (ExitReason × ExitCondition) :=
  ts.map fun t => (t.1.source, t.2)

theorem source_pollNext {run : Option ExitCondition} {t t' : Trigger}
    {r : Except String TriggerReason} (h : t.pollNext run = some (r, t')) :
    t'.source = t.source := by
  unfold Trigger.pollNext at h
  split at h
  · cases h
    rfl
  · cases h
  · split at h
    · split at h <;> cases h <;> rfl
    · cases h
      rfl

/-- Polling takes what is waiting and leaves the triggers. -/
theorem sources_pollTriggers {run : Option ExitCondition} {ts ts' : List (Trigger × ExitCondition)}
    {r : Except String (TriggerReason × ExitCondition)}
    (h : pollTriggers run ts = some (r, ts')) : sources ts' = sources ts := by
  induction ts generalizing ts' with
  | nil => cases h
  | cons t ts ih =>
    simp only [pollTriggers] at h
    split at h
    · rename_i hpoll
      cases h
      simp [sources, source_pollNext hpoll]
    · rename_i hpoll
      cases h
      simp [sources, source_pollNext hpoll]
    · obtain ⟨⟨r', ts''⟩, hrest, heq⟩ := Option.map_eq_some_iff.mp h
      cases heq
      exact congrArg ((t.1.source, t.2) :: ·) (ih hrest)

/-- What a change of one element does not show in. -/
theorem map_modify_eq {α β : Type*} {f : α → α} {g : α → β} (h : ∀ a, g (f a) = g a)
    (l : List α) (i : ℕ) : (l.modify i f).map g = l.map g := by
  induction l generalizing i with
  | nil => simp
  | cons a l ih =>
    cases i with
    | zero => simp [h]
    | succ i => simp [ih i]

/-- What arrives leaves the triggers. -/
theorem sources_receive (ts : List (Trigger × ExitCondition)) (i : ℕ) (a : Arrival) :
    sources (ts.modify i fun t => (t.1.receive a, t.2)) = sources ts := by
  refine map_modify_eq (fun t => ?_) ts i
  obtain ⟨t, ec⟩ := t
  cases t <;> cases a <;> rfl

/-! ## One step of the monitor -/

/-- `monitor` is in its loop: it has not decided to quit or to give up. -/
def Point.serving : Point → Bool
  | .initializing | .polling | .reloading _ | .snapshot _ | .awaiting _ _ => true
  | _ => false

/-- `monitor` is past `quit`, or gives up without it. -/
def Point.leaving : Point → Bool
  | .cleanUp _ | .notifyStopping _ | .returned _ => true
  | _ => false

theorem not_leaving_of_serving {p : Point} (h : p.serving = true) : p.leaving = false := by
  cases p <;> first | rfl | cases h

namespace World

variable {w w' : World} {parent : Proc} {triggers : List (Trigger × ExitCondition)}
  {notifier : Option (List Notice)}

/-- What attempt `n` returned. -/
def result (w : World) (n : ℕ) : Option UpgradeFinished := (w.family.sys.comp n).main.result

/-- The condition for which `quit` has closed the registry, if it has. -/
def closedFor (w : World) : Option ExitCondition :=
  match w.point with
  | .closeUsed _ _ => none
  | .stopAll ec _ => some ec
  | _ => w.runState

/-- The condition for which `quit` runs or has run. -/
def quitting (w : World) : Option ExitCondition :=
  match w.point with
  | .closeUsed ec _ => some ec
  | _ => w.closedFor

/-- The moves of `monitor` that change neither the registry nor the run state nor the
attempts: on within the loop, after an attempt only if it failed; to `quit` because of a
trigger, or because the attempt succeeded; to the end. -/
inductive Moves (w : World) (ts : List (Trigger × ExitCondition)) : Point → Prop
  | serve {p : Point} : w.point.serving = true → p.serving = true →
      (∀ n reason, p ≠ .awaiting n reason) → sources ts = sources w.triggers →
      (∀ n reason, w.point = .awaiting n reason → (w.result n).isSome = true) → Moves w ts p
  | stop {ec : ExitCondition} {reason : ExitReason} : w.point = .polling → ec ≠ .upgrade →
      Moves w ts (.closeUsed ec reason)
  | accept {n : ℕ} {reason : ExitReason} : w.point = .awaiting n reason →
      w.result n = some (.ok ()) → Moves w ts (.closeUsed .upgrade reason)
  | leave {p : Point} : p.leaving = true →
      (w.point.serving = true ∨ w.point.leaving = true) → Moves w ts p

/-- On within the loop, from a point at which no attempt is awaited. -/
theorem Moves.loop {p : Point} (hserving : w.point.serving = true)
    (hne : ∀ n reason, w.point ≠ .awaiting n reason) (hp : p.serving = true)
    (hp' : ∀ n reason, p ≠ .awaiting n reason) : w.Moves w.triggers p :=
  .serve hserving hp hp' rfl fun n reason h => absurd h (hne n reason)

/-- The step from `w` to `w'` is a move. -/
def Moved (w w' : World) : Prop :=
  ∃ ts nt p, w.Moves ts p ∧
    w' = { w with triggers := ts, notifier := nt, point := p }

/-- A notice is a move when both its outcomes are. -/
theorem moved_notify {notice : Notice} {io : Option String} {next : Point}
    {failed : String → Point} (hnext : w.Moves w.triggers next)
    (hfailed : ∀ e, w.Moves w.triggers (failed e)) :
    w.Moved (w.notify notice io next failed) := by
  unfold notify
  split
  · rename_i hnone
    exact ⟨w.triggers, none, next, hnext, by rw [← hnone]⟩
  · rename_i log hsome
    split
    · exact ⟨w.triggers, _, next, hnext, rfl⟩
    · rename_i e
      exact ⟨w.triggers, some log, failed e, hfailed e, by rw [← hsome]⟩

/-- A trigger, or an error of one, is a move. -/
theorem moved_polling {io : Option String} (hpoint : w.point = .polling)
    (h : w.monitor io = some w') : w.Moved w' := by
  have hserving : w.point.serving = true := by rw [hpoint]; rfl
  simp only [monitor, hpoint] at h
  split at h
  · cases h
  · rename_i r ec ts hpoll
    cases h
    refine ⟨ts, w.notifier, dispatch r ec, ?_, rfl⟩
    cases ec with
    | upgrade =>
      exact .serve hserving rfl (by simp [dispatch]) (sources_pollTriggers hpoll)
        (by simp [hpoint])
    | stop => exact .stop hpoint (by simp)
    | partialStop => exact .stop hpoint (by simp)
  · cases h
    exact ⟨_, w.notifier, _, .leave rfl (.inl hserving), rfl⟩

/-- Cleaning up the triggers is a move. -/
theorem moved_cleanUp {io : Option String} {ending : Ending} (hpoint : w.point = .cleanUp ending)
    (h : w.monitor io = some w') : w.Moved w' := by
  have hleaving : w.point.serving = true ∨ w.point.leaving = true := .inr (by rw [hpoint]; rfl)
  simp only [monitor, hpoint] at h
  split at h
  · split at h <;> cases h
    · exact ⟨w.triggers, w.notifier, _, .leave rfl hleaving, rfl⟩
    · exact ⟨w.triggers, w.notifier, _, .leave rfl hleaving, rfl⟩
  · rename_i ts _
    cases h
    exact ⟨ts, w.notifier, .cleanUp ending, .leave rfl hleaving, by rw [← hpoint]⟩
  · rename_i path _ _ ts _
    split at h <;> cases h
    · exact ⟨ts, w.notifier, .cleanUp ending, .leave rfl hleaving,
        by rw [← hpoint]⟩
    · exact ⟨[], w.notifier, _, .leave rfl hleaving, rfl⟩

/-- The end of an attempt is a move. -/
theorem moved_awaiting {io : Option String} {n : ℕ} {reason : ExitReason}
    (hpoint : w.point = .awaiting n reason) (h : w.monitor io = some w') : w.Moved w' := by
  have hserving : w.point.serving = true := by rw [hpoint]; rfl
  simp only [monitor, hpoint] at h
  split at h
  -- the thread of the attempt has panicked: the channel is closed
  · cases h
    exact ⟨w.triggers, w.notifier, _, .leave rfl (.inl hserving), rfl⟩
  · split at h
    · cases h
    · rename_i hres
      cases h
      exact ⟨w.triggers, w.notifier, _, .accept hpoint hres, rfl⟩
    · rename_i e hres
      cases h
      refine ⟨w.triggers, w.notifier, _, .serve hserving rfl (by simp) rfl ?_, rfl⟩
      intro m reason' hm
      cases hpoint.symm.trans hm
      rw [result, hres]
      rfl

/-- **What a step of `monitor` does**: it moves, or it closes the registry, or it sets the
run state, or it takes the list for a new attempt. -/
theorem monitor_eq_some {io : Option String} (h : w.monitor io = some w') :
    w.Moved w' ∨
    (∃ ec reason, w.point = .closeUsed ec reason ∧
      w' = { w with parent := w.parent.closeUsed, point := .stopAll ec reason }) ∨
    (∃ ec reason, w.point = .stopAll ec reason ∧
      w' = { w with runState := some ec, point := afterQuit reason ec }) ∨
    (∃ reason, w.point = .snapshot reason ∧
      w' = { w with
        sent := Function.update w.sent w.attempts w.parent.getFdsForChild
        attempts := w.attempts + 1
        point := .awaiting w.attempts reason }) := by
  cases hpoint : w.point with
  | polling => exact .inl (moved_polling hpoint h)
  | cleanUp ending => exact .inl (moved_cleanUp hpoint h)
  | awaiting n reason => exact .inl (moved_awaiting hpoint h)
  | initializing | reloading reason =>
    have hserving : w.point.serving = true := by rw [hpoint]; rfl
    simp only [monitor, hpoint, Option.some.injEq] at h
    subst h
    exact .inl (moved_notify (.loop hserving (by simp [hpoint]) rfl (by simp))
      fun e => .leave rfl (.inl hserving))
  | notifyStopping ending =>
    have hleaving : w.point.serving = true ∨ w.point.leaving = true := .inr (by rw [hpoint]; rfl)
    simp only [monitor, hpoint, Option.some.injEq] at h
    subst h
    exact .inl (moved_notify (.leave rfl hleaving) fun e => .leave rfl hleaving)
  | closeUsed ec reason =>
    simp only [monitor, hpoint, Option.some.injEq] at h
    exact .inr (.inl ⟨ec, reason, rfl, h.symm⟩)
  | stopAll ec reason =>
    simp only [monitor, hpoint, Option.some.injEq] at h
    exact .inr (.inr (.inl ⟨ec, reason, rfl, h.symm⟩))
  | snapshot reason =>
    simp only [monitor, hpoint, Option.some.injEq] at h
    exact .inr (.inr (.inr ⟨reason, rfl, h.symm⟩))
  | returned res =>
    simp only [monitor, hpoint] at h
    cases h

/-! ## What a step leaves alone -/

@[simp] theorem triggers_notify (w : World) (notice : Notice) (io : Option String)
    (next : Point) (failed : String → Point) :
    (w.notify notice io next failed).triggers = w.triggers := by
  unfold notify
  split
  · rfl
  · split <;> rfl

/-- A step of the monitor that is not a poll leaves the triggers, until they are cleaned
up. -/
theorem triggers_of_monitor {io : Option String} (hpoint : w.point ≠ .polling)
    (hleaving : w.point.leaving = false) (h : w.monitor io = some w') :
    w'.triggers = w.triggers := by
  cases hp : w.point with
  | polling => exact absurd hp hpoint
  | cleanUp ending | notifyStopping ending | returned res =>
    rw [hp] at hleaving
    cases hleaving
  | initializing | reloading reason =>
    simp only [monitor, hp, Option.some.injEq] at h
    rw [← h, triggers_notify]
  | closeUsed ec reason | stopAll ec reason | snapshot reason =>
    simp only [monitor, hp, Option.some.injEq] at h
    rw [← h]
  | awaiting n reason =>
    simp only [monitor, hp] at h
    split at h
    · cases h
      rfl
    · split at h
      · cases h
      · cases h
        rfl
      · cases h
        rfl

/-- What happens beside the monitor leaves its position and what it goes by. -/
theorem step_beside {e : Event} (h : w.step e = some w') (he : ∀ io, e ≠ .monitor io) :
    w'.point = w.point ∧ sources w'.triggers = sources w.triggers ∧
      w'.notifier = w.notifier ∧ w'.runState = w.runState ∧ w'.attempts = w.attempts := by
  cases e with
  | monitor io => exact absurd rfl (he io)
  | arrive i a =>
    cases h
    exact ⟨rfl, sources_receive .., rfl, rfl, rfl⟩
  | returns i =>
    cases h
    exact ⟨rfl, rfl, rfl, rfl, rfl⟩
  | family e | kid n e | listen r =>
    simp only [World.step] at h
    split at h
    · obtain ⟨_, -, rfl⟩ := Option.map_eq_some_iff.mp h
      exact ⟨rfl, rfl, rfl, rfl, rfl⟩
    · cases h
  | openFd fd d | closeFd fd =>
    simp only [World.step] at h
    split at h
    · cases h
      exact ⟨rfl, rfl, rfl, rfl, rfl⟩
    · cases h

/-- What happens beside the monitor leaves the triggers, apart from what arrives. -/
theorem triggers_beside {e : Event} (h : w.step e = some w') (he : ∀ io, e ≠ .monitor io) :
    w'.triggers = w.triggers ∨
    ∃ i a, e = .arrive i a ∧
      w'.triggers = w.triggers.modify i fun t => (t.1.receive a, t.2) := by
  cases e with
  | monitor io => exact absurd rfl (he io)
  | arrive i a =>
    cases h
    exact .inr ⟨i, a, rfl, rfl⟩
  | returns i =>
    cases h
    exact .inl rfl
  | family e | kid n e | listen r =>
    simp only [World.step] at h
    split at h
    · obtain ⟨_, -, rfl⟩ := Option.map_eq_some_iff.mp h
      exact .inl rfl
    · cases h
  | openFd fd d | closeFd fd =>
    simp only [World.step] at h
    split at h
    · cases h
      exact .inl rfl
    · cases h

/-- Once the monitor leaves, it does not come back. -/
theorem not_leaving_of_step {e : Event} (h : w.step e = some w')
    (hw' : w'.point.leaving = false) : w.point.leaving = false := by
  by_contra hne
  rw [Bool.not_eq_false] at hne
  by_cases he : ∃ io, e = .monitor io
  · obtain ⟨io, rfl⟩ := he
    rcases monitor_eq_some h with ⟨ts, nt, p, hmoves, rfl⟩ | ⟨ec, reason, hp, -⟩ |
      ⟨ec, reason, hp, -⟩ | ⟨reason, hp, -⟩
    · cases hmoves with
      | serve hserving => cases hp : w.point <;> simp_all [Point.serving, Point.leaving]
      | stop hp => simp [hp, Point.leaving] at hne
      | accept hp => simp [hp, Point.leaving] at hne
      | leave hp => simp [hp] at hw'
    · simp [hp, Point.leaving] at hne
    · simp [hp, Point.leaving] at hne
    · simp [hp, Point.leaving] at hne
  · rw [(step_beside h fun io heq => he ⟨io, heq⟩).1, hne] at hw'
    cases hw'

/-! ## The course of the monitor -/

theorem closedFor_of_serving (h : w.point.serving = true) : w.closedFor = w.runState := by
  unfold closedFor
  cases hpoint : w.point <;> simp_all [Point.serving]

theorem closedFor_of_leaving (h : w.point.leaving = true) : w.closedFor = w.runState := by
  unfold closedFor
  cases hpoint : w.point <;> simp_all [Point.leaving]

theorem quitting_of_loop (h : w.point.serving = true ∨ w.point.leaving = true) :
    w.quitting = w.runState := by
  unfold quitting closedFor
  cases hpoint : w.point <;> simp_all [Point.serving, Point.leaving]

theorem leaving_afterQuit (reason : ExitReason) (ec : ExitCondition) :
    (afterQuit reason ec).leaving = true := by
  cases ec <;> rfl

/-- What the position of `monitor` says about the run state, the triggers and the results
of the attempts. -/
structure Course (triggers : List (Trigger × ExitCondition)) (w : World) : Prop where
  runState : w.point.serving = true → w.runState = none
  triggers : w.point.serving = true → sources w.triggers = sources triggers
  awaiting : ∀ n reason, w.point = .awaiting n reason → w.attempts = n + 1
  settled : w.point.serving = true ∨ w.quitting.isSome = true → ∀ n < w.attempts,
    (∃ reason, w.point = .awaiting n reason) ∨ (w.result n).isSome = true
  accepted : w.quitting = some .upgrade → ∃ n, w.attempts = n + 1 ∧ w.result n = some (.ok ())

/-- The course depends on the position, the run state, the triggers, the number of
attempts and the results returned so far. -/
theorem Course.congr (hw : w.Course triggers) (hpoint : w'.point = w.point)
    (hrun : w'.runState = w.runState) (hattempts : w'.attempts = w.attempts)
    (htriggers : sources w'.triggers = sources w.triggers)
    (hresult : ∀ n res, w.result n = some res → w'.result n = some res) :
    w'.Course triggers := by
  have hquit : w'.quitting = w.quitting := by
    unfold quitting closedFor
    rw [hpoint, hrun]
  refine ⟨?_, ?_, ?_, ?_, ?_⟩
  · rw [hpoint, hrun]
    exact hw.runState
  · rw [hpoint, htriggers]
    exact hw.triggers
  · rw [hpoint, hattempts]
    exact hw.awaiting
  · rw [hpoint, hattempts, hquit]
    intro h n hn
    refine (hw.settled h n hn).imp_right fun hsome => ?_
    obtain ⟨res, hres⟩ := Option.isSome_iff_exists.mp hsome
    rw [hresult n res hres]
    rfl
  · rw [hquit, hattempts]
    intro h
    obtain ⟨n, hn, hok⟩ := hw.accepted h
    exact ⟨n, hn, hresult n _ hok⟩

/-- An attempt that is past waiting has a result. -/
theorem Course.isSome_result (hw : w.Course triggers) {n : ℕ} (hn : n < w.attempts)
    (h : w.point.serving = true ∨ w.quitting.isSome = true)
    (hne : ∀ reason, w.point ≠ .awaiting n reason) : (w.result n).isSome = true := by
  rcases hw.settled h n hn with ⟨reason, hpoint⟩ | hsome
  · exact absurd hpoint (hne reason)
  · exact hsome

/-- Out of the loop, what remains of the course are the results. -/
theorem course_of_not_serving (hpoint : w.point.serving = false)
    (hsettled : w.quitting.isSome = true → ∀ n < w.attempts, (w.result n).isSome = true)
    (haccepted : w.quitting = some .upgrade →
      ∃ n, w.attempts = n + 1 ∧ w.result n = some (.ok ())) : w.Course triggers := by
  refine ⟨?_, ?_, ?_, ?_, haccepted⟩
  · rw [hpoint]
    exact fun hf => nomatch hf
  · rw [hpoint]
    exact fun hf => nomatch hf
  · intro n reason hn
    rw [hn] at hpoint
    cases hpoint
  · rw [hpoint]
    exact fun h n hn => .inr (hsettled (h.resolve_left (by simp)) n hn)

/-- The moves of `monitor` keep its course. -/
theorem Course.moves {ts : List (Trigger × ExitCondition)} {nt : Option (List Notice)}
    {p : Point} (hw : w.Course triggers) (h : w.Moves ts p) :
    Course triggers { w with triggers := ts, notifier := nt, point := p } := by
  cases h with
  | serve hserving hp hne htriggers hresult =>
    have hrun := hw.runState hserving
    refine ⟨fun _ => hrun, fun _ => htriggers.trans (hw.triggers hserving),
      fun n reason hn => absurd hn (hne n reason), fun _ n hn => .inr ?_, fun hq => ?_⟩
    · rcases hw.settled (.inl hserving) n hn with ⟨reason, hpoint⟩ | hsome
      · exact hresult n reason hpoint
      · exact hsome
    · rw [quitting_of_loop (.inl hp)] at hq
      cases hrun.symm.trans hq
  | stop hpoint hec =>
    refine course_of_not_serving rfl (fun _ n hn => ?_) fun hq => ?_
    · exact hw.isSome_result hn (.inl (by rw [hpoint]; rfl)) (by simp [hpoint])
    · exact absurd (Option.some.inj hq) hec
  | @accept n reason hpoint hok =>
    -- the attempt awaited is the last one, and all others have returned before it began
    refine course_of_not_serving rfl (fun _ m hm => ?_)
      fun _ => ⟨n, hw.awaiting n reason hpoint, hok⟩
    rcases hw.settled (.inl (by rw [hpoint]; rfl)) m hm with ⟨reason', hpoint'⟩ | hsome
    · cases hpoint.symm.trans hpoint'
      exact congrArg Option.isSome hok
    · exact hsome
  | leave hp hloop =>
    have hquit : quitting { w with triggers := ts, notifier := nt, point := p }
        = w.quitting := by
      rw [quitting_of_loop (.inr hp), quitting_of_loop hloop]
    refine course_of_not_serving (by cases p <;> first | rfl | cases hp) ?_ ?_ <;> rw [hquit]
    · intro hq n hn
      refine hw.isSome_result hn (.inr hq) fun reason hpoint => ?_
      rw [quitting_of_loop hloop, hw.runState (by rw [hpoint]; rfl)] at hq
      cases hq
    · exact hw.accepted

/-- **Step lemma**: `monitor` keeps its course. -/
theorem Course.monitor {io : Option String} (hw : w.Course triggers)
    (h : w.monitor io = some w') : w'.Course triggers := by
  rcases monitor_eq_some h with ⟨ts, nt, p, hmoves, rfl⟩ | ⟨ec, reason, hpoint, rfl⟩ |
    ⟨ec, reason, hpoint, rfl⟩ | ⟨reason, hpoint, rfl⟩
  · exact hw.moves hmoves
  · have hquit : w.quitting = some ec := by simp [quitting, hpoint]
    refine course_of_not_serving rfl (fun _ n hn => ?_) fun hq => hw.accepted (hquit.trans hq)
    exact hw.isSome_result hn (.inr (by rw [hquit]; rfl)) (by simp [hpoint])
  · have hquit : w.quitting = some ec := by simp [quitting, closedFor, hpoint]
    refine course_of_not_serving (by cases ec <;> rfl) (fun _ n hn => ?_) fun hq => ?_
    · exact hw.isSome_result hn (.inr (by rw [hquit]; rfl)) (by simp [hpoint])
    · rw [quitting_of_loop (.inr (leaving_afterQuit reason ec))] at hq
      exact hw.accepted (hquit.trans hq)
  · have hserving : w.point.serving = true := by rw [hpoint]; rfl
    refine ⟨fun _ => hw.runState hserving, fun _ => hw.triggers hserving, ?_, ?_, ?_⟩
    · rintro n reason' ⟨⟩
      rfl
    · intro _ n hn
      rcases Nat.lt_succ_iff_lt_or_eq.mp hn with hn | rfl
      · exact .inr (hw.isSome_result hn (.inl hserving) (by simp [hpoint]))
      · exact .inl ⟨reason, rfl⟩
    · intro hq
      have hrun : w.runState = some .upgrade := hq
      rw [hw.runState hserving] at hrun
      cases hrun

/-! ## The children -/

/-- Whose registry an event of the family touches: a child that is spawned starts with the
list of its attempt, a child that calls `ready` closes what it has not claimed. -/
theorem kidsAfter_cases (w : World) (e : Family.Event) (n : ℕ) :
    w.kidsAfter e n = w.kids n ∨
    (e = .thread (.act n .main) ∧ (w.family.sys.comp n).main = .setup .spawn ∧
      w.kidsAfter e n = (w.parent.spawnChild (w.sent n)).map Life.init) ∨
    (e = .ready n ∧ w.kidsAfter e n = (w.kids n).bind fun life => life.step .ready) := by
  unfold kidsAfter
  split
  · rename_i m
    split
    · rename_i hspawn
      by_cases hn : n = m
      · subst hn
        exact .inr (.inl ⟨rfl, hspawn, Function.update_self ..⟩)
      · exact .inl (Function.update_of_ne hn ..)
    · exact .inl rfl
  · rename_i m
    by_cases hn : n = m
    · subst hn
      exact .inr (.inr ⟨rfl, Function.update_self ..⟩)
    · exact .inl (Function.update_of_ne hn ..)
  · exact .inl rfl

/-- A child that has called `ready` has closed what it did not claim, and every child
holds what it has claimed. -/
structure Children (w : World) : Prop where
  family : w.family.Sound
  called : ∀ n, (w.family.prog n).called = true →
    ∃ life, w.kids n = some life ∧ life.ready = true
  keeps : ∀ n life, w.kids n = some life → life.Keeps

/-- The attempts that spawn a child find their list among the entries in use. -/
def Spawns (w : World) : Prop :=
  ∀ n < w.attempts, (w.family.sys.comp n).main = .setup .spawn →
    w.parent.WF ∧ w.sent n <+: w.parent.usedFds

/-- A child that calls `ready` has read its list. -/
theorem kidsAfter_ready {n : ℕ} (h : w.enabled (.ready n) = true) :
    ∃ life, w.kidsAfter (.ready n) n = some life ∧ life.ready = true := by
  simp only [enabled, decide_eq_true_eq] at h
  obtain ⟨life, hlife⟩ := Option.isSome_iff_exists.mp h.2
  exact ⟨{ life with proc := life.proc.closeInherited, ready := true },
    by simp [kidsAfter, hlife, Life.step], rfl⟩

/-- **Step lemma**: an event of the family. -/
theorem Children.stepFamily {e : Family.Event} {F : Family} (hw : w.Children)
    (hspawns : w.Spawns) (henabled : w.enabled e = true) (h : w.family.step e = some F) :
    Children { w with family := F, kids := w.kidsAfter e } := by
  refine ⟨(hw.family.step h).1, fun n hcalled => ?_, fun n life hlife => ?_⟩
  · rcases (Family.called_step h n).mp hcalled with hold | rfl
    · rcases w.kidsAfter_cases e n with heq | ⟨-, hspawn, -⟩ | ⟨rfl, -⟩
      · obtain ⟨life, hlife, hready⟩ := hw.called n hold
        exact ⟨life, heq.trans hlife, hready⟩
      -- a child that has not been spawned has not called `ready`
      · have hmain := (coherent_of_reachable hw.family.sys n).main
        simp only [Call.MainFacts, hspawn] at hmain
        refine absurd (hmain.2.2.mpr (by simp)) ((hw.family.facts n).born fun hfresh => ?_)
        rw [hfresh] at hold
        cases hold
      · exact kidsAfter_ready henabled
    · exact kidsAfter_ready henabled
  · have hlife : w.kidsAfter e n = some life := hlife
    rcases w.kidsAfter_cases e n with heq | ⟨rfl, hspawn, heq⟩ | ⟨rfl, heq⟩ <;> rw [heq] at hlife
    · exact hw.keeps n life hlife
    · obtain ⟨c, hc, rfl⟩ := Option.map_eq_some_iff.mp hlife
      simp only [enabled, decide_eq_true_eq] at henabled
      obtain ⟨hwf, hsent⟩ := hspawns n henabled hspawn
      exact Life.keeps_init (hwf.spawnChild hsent hc)
    · obtain ⟨life₀, hlife₀, hstep⟩ := Option.bind_eq_some_iff.mp hlife
      exact (hw.keeps n life₀ hlife₀).step hstep

/-- **Step lemma**: a child goes on. -/
theorem Children.stepKid {n : ℕ} {e : Life.Event} {life life' : Life} (hw : w.Children)
    (hlife : w.kids n = some life) (he : isReady e = false) (h : life.step e = some life') :
    Children { w with kids := Function.update w.kids n (some life') } := by
  have hready : life'.ready = life.ready := by
    rcases Life.step_eq_some h with ⟨_, _, _, rfl, -, -, rfl⟩ | ⟨_, _, _, _, rfl, -, -, rfl⟩ |
      ⟨_, _, rfl, -, rfl⟩ | ⟨_, rfl, -, rfl⟩ | ⟨rfl, rfl⟩ | ⟨rfl, rfl⟩
    all_goals first | rfl | cases he
  refine ⟨hw.family, fun m hcalled => ?_, fun m l hl => ?_⟩
  · obtain ⟨l, hl, hlready⟩ := hw.called m hcalled
    by_cases hm : m = n
    · subst hm
      cases hl.symm.trans hlife
      exact ⟨life', Function.update_self .., hready.trans hlready⟩
    · exact ⟨l, (Function.update_of_ne hm ..).trans hl, hlready⟩
  · by_cases hm : m = n
    · subst hm
      cases (Function.update_self ..).symm.trans hl
      exact (hw.keeps m life hlife).step h
    · exact hw.keeps m l ((Function.update_of_ne hm ..).symm.trans hl)

/-! ## The stock of the parent -/

/-- The registry, the lists sent and the calls of the application agree: the entries in
use are those of `parent` and those the calls added since; a list sent is the part of them
there was when it was taken. -/
structure Booked (parent : Proc) (w : World) : Prop where
  used : w.parent.usedFds = parent.usedFds ++ w.calls.filterMap AppCall.entry
  sent : ∀ n < w.attempts, w.sent n <+: w.parent.usedFds
  attempt_le : ∀ c ∈ w.calls, c.attempt ≤ w.attempts
  early : ∀ c ∈ w.calls, ∀ n < w.attempts, c.attempt ≤ n → ∀ li, c.entry = some li → li ∈ w.sent n
  late : ∀ c ∈ w.calls, ∀ n < c.attempt, ∀ li, c.entry = some li → li ∉ w.sent n
  entry : ∀ c ∈ w.calls, c.result.isOk = true → c.entry.isSome = true

/-- The agreement is between these four. -/
theorem Booked.congr (hw : w.Booked parent) (hused : w'.parent.usedFds = w.parent.usedFds)
    (hcalls : w'.calls = w.calls) (hsent : w'.sent = w.sent)
    (hattempts : w'.attempts = w.attempts) : w'.Booked parent := by
  obtain ⟨h₁, h₂, h₃, h₄, h₅, h₆⟩ := hw
  refine ⟨?_, ?_, ?_, ?_, ?_, ?_⟩ <;> simp only [hused, hcalls, hsent, hattempts] <;> assumption

/-- A list is taken. -/
theorem Booked.snapshot {p : Point} (hw : w.Booked parent) :
    Booked parent { w with
      sent := Function.update w.sent w.attempts w.parent.getFdsForChild
      attempts := w.attempts + 1
      point := p } := by
  refine ⟨hw.used, fun n hn => ?_, fun c hc => Nat.le_succ_of_le (hw.attempt_le c hc),
    fun c hc n hn hle li hli => ?_, fun c hc n hn li hli => ?_, hw.entry⟩
  · show Function.update w.sent w.attempts w.parent.usedFds n <+: _
    rcases Nat.lt_succ_iff_lt_or_eq.mp hn with hn | rfl
    · rw [Function.update_of_ne hn.ne]
      exact hw.sent n hn
    · rw [Function.update_self]
  · show li ∈ Function.update w.sent w.attempts w.parent.usedFds n
    rcases Nat.lt_succ_iff_lt_or_eq.mp hn with hn | rfl
    · rw [Function.update_of_ne hn.ne]
      exact hw.early c hc n hn hle li hli
    · rw [Function.update_self, hw.used]
      exact List.mem_append_right _ (List.mem_filterMap.mpr ⟨c, hc, hli⟩)
  · show li ∉ Function.update w.sent w.attempts w.parent.usedFds n
    rw [Function.update_of_ne (hn.trans_le (hw.attempt_le c hc)).ne]
    exact hw.late c hc n hn li hli

/-- The application calls a listening method. -/
theorem Booked.listen {r : Request} {res : Listened} {p : Proc} (hw : w.Booked parent)
    (hp : p.WF) (h : w.parent.listenWith r.key r.creation r.adopt = some (res, p)) :
    Booked parent { w with
      parent := p
      calls := w.calls ++
        [⟨res, (p.usedFds.drop w.parent.usedFds.length).head?, w.attempts, false⟩] } := by
  obtain ⟨added, hused, hok⟩ := Proc.usedFds_listenWith h
  have hentry : (p.usedFds.drop w.parent.usedFds.length).head? = added := by
    rw [hused, List.drop_left]
    cases added <;> rfl
  have hpre : w.parent.usedFds <+: p.usedFds := hused ▸ List.prefix_append _ _
  rw [hentry]
  refine ⟨?_, fun n hn => (hw.sent n hn).trans hpre, fun c hc => ?_, fun c hc n hn hle li hli => ?_,
    fun c hc n hn li hli => ?_, fun c hc hres => ?_⟩
  · show p.usedFds = _
    rw [hused, hw.used, List.filterMap_append, List.append_assoc]
    cases added <;> rfl
  all_goals rcases List.mem_append.mp hc with hc | hc
  · exact hw.attempt_le c hc
  · cases List.mem_singleton.mp hc
    exact le_refl _
  · exact hw.early c hc n hn hle li hli
  · cases List.mem_singleton.mp hc
    exact absurd hn (Nat.not_lt.mpr hle)
  · exact hw.late c hc n hn li hli
  -- the number of the new entry is not that of an older one
  · cases List.mem_singleton.mp hc
    have hli : added = some li := hli
    rw [hli] at hused
    have hnodup : (p.usedFds.map ListenerInfo.fd).Nodup := by
      have hreg := hp.nodup
      rw [Proc.registered, List.map_append] at hreg
      exact (List.nodup_append.mp hreg).2.1
    rw [hused, List.map_append] at hnodup
    intro hmem
    exact List.disjoint_of_nodup_append hnodup
      (List.mem_map_of_mem ((hw.sent n hn).subset hmem)) List.mem_cons_self
  · exact hw.entry c hc hres
  · cases List.mem_singleton.mp hc
    exact hok hres

/-- A call of the application returns. -/
theorem Booked.returns (hw : w.Booked parent) (i : ℕ) :
    Booked parent { w with calls := w.calls.modify i fun c => { c with returned := true } } := by
  have hmap : (w.calls.modify i fun c => { c with returned := true }).map
      (fun c => (c.result, c.entry, c.attempt))
        = w.calls.map fun c => (c.result, c.entry, c.attempt) :=
    map_modify_eq (f := fun c : AppCall => { c with returned := true }) (fun _ => rfl) w.calls i
  have hsame : ∀ c ∈ w.calls.modify i fun c => { c with returned := true },
      ∃ c₀ ∈ w.calls, c₀.result = c.result ∧ c₀.entry = c.entry ∧ c₀.attempt = c.attempt := by
    intro c hc
    have hmem := List.mem_map_of_mem (f := fun c : AppCall => (c.result, c.entry, c.attempt)) hc
    rw [hmap] at hmem
    obtain ⟨c₀, hc₀, heq⟩ := List.mem_map.mp hmem
    exact ⟨c₀, hc₀, by simpa using heq⟩
  have hentries := congrArg (List.filterMap fun x => x.2.1) hmap
  rw [List.filterMap_map, List.filterMap_map] at hentries
  refine ⟨hw.used.trans (congrArg _ hentries.symm), hw.sent, fun c hc => ?_,
    fun c hc n hn hle li hli => ?_, fun c hc n hn li hli => ?_, fun c hc hres => ?_⟩
  all_goals obtain ⟨c₀, hc₀, hres₀, hentry₀, hattempt₀⟩ := hsame c hc
  · exact hattempt₀ ▸ hw.attempt_le c₀ hc₀
  · exact hw.early c₀ hc₀ n hn (hattempt₀ ▸ hle) li (hentry₀.trans hli)
  · exact hw.late c₀ hc₀ n (hattempt₀ ▸ hn) li (hentry₀.trans hli)
  · exact hentry₀ ▸ hw.entry c₀ hc₀ (hres₀ ▸ hres)

/-- The registry of the parent is well-formed; as long as `quit` has not closed it, it
holds what the children have claimed and can claim, and agrees with the calls. -/
structure Stock (parent : Proc) (w : World) : Prop where
  wf : w.parent.WF
  held : w.closedFor = none → ∀ n life, w.kids n = some life → life.HeldBy w.parent
  booked : w.closedFor = none → w.Booked parent

/-- A move of `monitor` does not bring back a registry that has been closed. -/
theorem Moves.closedFor {ts : List (Trigger × ExitCondition)} {nt : Option (List Notice)}
    {p : Point} (hc : w.Course triggers) (h : w.Moves ts p)
    (hopen : closedFor { w with triggers := ts, notifier := nt, point := p }
      = none) : w.closedFor = none := by
  have hserving : w.point.serving = true → w.closedFor = none := fun hs =>
    (closedFor_of_serving hs).trans (hc.runState hs)
  cases h with
  | serve hs _ _ _ _ => exact hserving hs
  | stop hpoint _ => exact hserving (by rw [hpoint]; rfl)
  | accept hpoint _ => exact hserving (by rw [hpoint]; rfl)
  | leave hp hloop =>
    rcases hloop with hs | hleaving
    · exact hserving hs
    · rw [closedFor_of_leaving hp] at hopen
      exact (closedFor_of_leaving hleaving).trans hopen

/-- **Step lemma**: `monitor`. -/
theorem Stock.monitor {io : Option String} (hw : w.Stock parent) (hc : w.Course triggers)
    (h : w.monitor io = some w') : w'.Stock parent := by
  rcases monitor_eq_some h with ⟨ts, nt, p, hmoves, rfl⟩ | ⟨ec, reason, hpoint, rfl⟩ |
    ⟨ec, reason, hpoint, rfl⟩ | ⟨reason, hpoint, rfl⟩
  · exact ⟨hw.wf, fun hopen => hw.held (hmoves.closedFor hc hopen),
      fun hopen => (hw.booked (hmoves.closedFor hc hopen)).congr rfl rfl rfl rfl⟩
  · exact ⟨hw.wf.closeUsed, fun hf => (nomatch hf), fun hf => (nomatch hf)⟩
  · have hclosed : closedFor { w with runState := some ec, point := afterQuit reason ec }
        = some ec := closedFor_of_leaving (leaving_afterQuit reason ec)
    refine ⟨hw.wf, ?_, ?_⟩ <;> rw [hclosed] <;> exact fun hf => nomatch hf
  · have hserving : w.point.serving = true := by rw [hpoint]; rfl
    have hopen : w.closedFor = none :=
      (closedFor_of_serving hserving).trans (hc.runState hserving)
    exact ⟨hw.wf, fun _ => hw.held hopen, fun _ => (hw.booked hopen).snapshot⟩

/-- An attempt spawns its child only while the registry has not been closed. -/
theorem Stock.spawns (hw : w.Stock parent) (hc : w.Course triggers) : w.Spawns := by
  intro n hn hspawn
  refine ⟨hw.wf, (hw.booked ?_).sent n hn⟩
  -- `quit` runs only when all attempts have a result, and this one has none yet
  have hnone : w.result n = none := by rw [result, hspawn]; rfl
  by_contra hclosed
  have hquit : w.quitting.isSome = true := by
    unfold quitting
    split
    · rfl
    · exact Option.isSome_iff_ne_none.mpr hclosed
  rcases hc.settled (.inr hquit) n hn with ⟨reason, hpoint⟩ | hsome
  · have hserving : w.point.serving = true := by rw [hpoint]; rfl
    exact hclosed ((closedFor_of_serving hserving).trans (hc.runState hserving))
  · rw [hnone] at hsome
    cases hsome

/-- **Step lemma**: an event of the family. -/
theorem Stock.stepFamily {e : Family.Event} {F : Family} (hw : w.Stock parent)
    (hk : w.Children) (hspawns : w.Spawns) (henabled : w.enabled e = true) :
    Stock parent { w with family := F, kids := w.kidsAfter e } := by
  refine ⟨hw.wf, fun hopen n life hlife => ?_,
    fun hopen => (hw.booked hopen).congr rfl rfl rfl rfl⟩
  have hlife : w.kidsAfter e n = some life := hlife
  rcases w.kidsAfter_cases e n with heq | ⟨rfl, hspawn, heq⟩ | ⟨rfl, heq⟩ <;> rw [heq] at hlife
  · exact hw.held hopen n life hlife
  · obtain ⟨c, hc, rfl⟩ := Option.map_eq_some_iff.mp hlife
    simp only [enabled, decide_eq_true_eq] at henabled
    exact Life.heldBy_spawnChild (hspawns n henabled hspawn).2 hc
  · obtain ⟨life₀, hlife₀, hstep⟩ := Option.bind_eq_some_iff.mp hlife
    exact (hw.held hopen n life₀ hlife₀).step (hk.keeps n life₀ hlife₀).sound.wf hstep

/-- **Step lemma**: a child goes on. -/
theorem Stock.stepKid {n : ℕ} {e : Life.Event} {life life' : Life} (hw : w.Stock parent)
    (hk : w.Children) (hlife : w.kids n = some life) (h : life.step e = some life') :
    Stock parent { w with kids := Function.update w.kids n (some life') } := by
  refine ⟨hw.wf, fun hopen m l hl => ?_, fun hopen => (hw.booked hopen).congr rfl rfl rfl rfl⟩
  by_cases hm : m = n
  · subst hm
    cases (Function.update_self ..).symm.trans hl
    exact (hw.held hopen m life hlife).step (hk.keeps m life hlife).sound.wf h
  · exact hw.held hopen m l ((Function.update_of_ne hm ..).symm.trans hl)

/-- **Step lemma**: the application listens. -/
theorem Stock.listen {r : Request} {res : Listened} {p : Proc} (hw : w.Stock parent)
    (havoids : r.creation.avoids w.parent.registered = true)
    (h : w.parent.listenWith r.key r.creation r.adopt = some (res, p)) :
    Stock parent { w with
      parent := p
      calls := w.calls ++
        [⟨res, (p.usedFds.drop w.parent.usedFds.length).head?, w.attempts, false⟩] } := by
  have hc := Creation.not_mem_of_avoids havoids
  have hp := hw.wf.listenWith hc h
  exact ⟨hp, fun hopen n life hlife =>
    (hw.held hopen n life hlife).evolves (hw.wf.evolves_listenWith hc h),
    fun hopen => (hw.booked hopen).listen hp h⟩

/-- **Step lemma**: the application opens and closes numbers of its own. -/
theorem Stock.evolves {p : Proc} (hw : w.Stock parent) (hp : p.WF)
    (hused : p.usedFds = w.parent.usedFds) (h : w.parent.Evolves p) :
    Stock parent { w with parent := p } :=
  ⟨hp, fun hopen n life hlife => (hw.held hopen n life hlife).evolves h,
    fun hopen => (hw.booked hopen).congr hused rfl rfl rfl⟩

/-! ## Every interleaving -/

/-- The invariant. -/
structure Sound (parent : Proc) (triggers : List (Trigger × ExitCondition)) (w : World) :
    Prop where
  course : w.Course triggers
  children : w.Children
  stock : w.Stock parent

theorem sound_init (hp : parent.WF) : (init parent triggers notifier).Sound parent triggers where
  course := ⟨fun _ => rfl, fun _ => rfl, fun _ _ hf => (nomatch hf), fun _ _ hn => (nomatch hn),
    fun hf => (nomatch hf)⟩
  children := ⟨Family.sound_init, fun _ hf => (nomatch hf), fun _ _ hf => (nomatch hf)⟩
  stock := ⟨hp, fun _ _ _ hf => (nomatch hf), fun _ => ⟨(List.append_nil _).symm,
    fun _ hn => (nomatch hn), fun _ hc => (nomatch hc), fun _ hc => (nomatch hc),
    fun _ hc => (nomatch hc), fun _ hc => (nomatch hc)⟩⟩

/-- **Step lemma**: every step keeps the invariant. -/
theorem Sound.step {e : Event} (hw : w.Sound parent triggers) (h : w.step e = some w') :
    w'.Sound parent triggers := by
  obtain ⟨hc, hk, hs⟩ := hw
  cases e with
  | monitor io =>
    refine ⟨hc.monitor h, ?_, hs.monitor hc h⟩
    rcases monitor_eq_some h with ⟨_, _, _, _, rfl⟩ | ⟨_, _, _, rfl⟩ | ⟨_, _, _, rfl⟩ |
      ⟨_, _, rfl⟩ <;> exact ⟨hk.family, hk.called, hk.keeps⟩
  | arrive i a =>
    cases h
    exact ⟨hc.congr rfl rfl rfl (sources_receive ..) fun _ _ => id,
      ⟨hk.family, hk.called, hk.keeps⟩,
      ⟨hs.wf, hs.held, fun hopen => (hs.booked hopen).congr rfl rfl rfl rfl⟩⟩
  | family e =>
    simp only [World.step] at h
    split at h
    · rename_i henabled
      obtain ⟨F, hF, rfl⟩ := Option.map_eq_some_iff.mp h
      have hspawns := hs.spawns hc
      exact ⟨hc.congr rfl rfl rfl rfl fun _ _ => Family.result_step hF,
        hk.stepFamily hspawns henabled hF, hs.stepFamily hk hspawns henabled⟩
    · cases h
  | kid n e =>
    simp only [World.step] at h
    split at h
    · rename_i hcond
      obtain ⟨life', hbind, rfl⟩ := Option.map_eq_some_iff.mp h
      obtain ⟨life, hlife, hstep⟩ := Option.bind_eq_some_iff.mp hbind
      exact ⟨hc.congr rfl rfl rfl rfl fun _ _ => id, hk.stepKid hlife hcond.2 hstep,
        hs.stepKid hk hlife hstep⟩
    · cases h
  | listen r =>
    simp only [World.step] at h
    split at h
    · rename_i havoids
      obtain ⟨⟨res, p⟩, hlisten, rfl⟩ := Option.map_eq_some_iff.mp h
      rw [Proc.listen_eq] at hlisten
      exact ⟨hc.congr rfl rfl rfl rfl fun _ _ => id, ⟨hk.family, hk.called, hk.keeps⟩,
        hs.listen havoids hlisten⟩
    · cases h
  | returns i =>
    cases h
    exact ⟨hc.congr rfl rfl rfl rfl fun _ _ => id, ⟨hk.family, hk.called, hk.keeps⟩,
      ⟨hs.wf, hs.held, fun hopen => (hs.booked hopen).returns i⟩⟩
  | openFd fd d =>
    simp only [World.step] at h
    split at h
    · rename_i hfd
      cases h
      exact ⟨hc.congr rfl rfl rfl rfl fun _ _ => id, ⟨hk.family, hk.called, hk.keeps⟩,
        hs.evolves (hs.wf.openFd fd d) rfl (Proc.evolves_openFd hfd)⟩
    · cases h
  | closeFd fd =>
    simp only [World.step] at h
    split at h
    · rename_i hfd
      cases h
      exact ⟨hc.congr rfl rfl rfl rfl fun _ _ => id, ⟨hk.family, hk.called, hk.keeps⟩,
        hs.evolves (hs.wf.closeFdQuiet hfd) rfl (Proc.evolves_closeFdQuiet hfd)⟩
    · cases h

/-- **The invariant holds in every state reached.** -/
theorem sound_of_reachable (hr : (world parent triggers notifier).Reachable w) :
    w.Sound parent triggers := by
  refine hr.invariant ?_ fun w e w' _ hw h => hw.step h
  rintro w ⟨hp, -, rfl⟩
  exact sound_init hp

end World

end Upgrader
