/-
# The chronicle of a monitor

The monitor beside everything it interacts with, with a record of what it does in the
order in which it does it: the triggers it takes, the results of its attempts, the
closing of the registry, the run state it publishes, the beginning of its shutdown, the
paths it removes and the notices it sends.  The children are recorded too as far as
systemd hears them: before `ready`, a child can ask for more time through its builder;
once `ready` has written `OK`, its own monitor sends its own notices.

The record of a run is a word whose shape depends on where `monitor` stands:

* `World.Turn` : the single steps of `monitor`, with what each of them records.
* `Departed` : what has been recorded of leaving, i.e. of `quit`, of the clean-up of the
  triggers and of the last notice.
* `Announced` : the notices systemd has got.
-/
import Ecdysis.MonitorInvariant

open Executioner

namespace Upgrader

/-! ## What is recorded -/

/-- What systemd can be told (`systemd_notify.rs`). -/
inductive Message
  | notice (n : Notice)
  | extendTimeouts
  deriving DecidableEq

/-- A process that talks to systemd: the parent, or the child of an attempt. -/
inductive Process
  | parent
  | child (n : ℕ)
  deriving DecidableEq

/-- The `MAINPID` that goes with a message: `notify_ready` sends the pid of its sender. -/
def Message.mainpid : Message → Process → Option Process
  | .notice .ready, sender => some sender
  | _, _ => none

/-- What is recorded; `shutdown` is the beginning of `on_shutdown`, or of the clean-up of a
partial stop, and a removal or a notice comes with its error, if there was one. -/
inductive Entry
  | triggered (reason : ExitReason) (ec : ExitCondition)
  | attempted (res : UpgradeFinished)
  | closedUsed
  | published (ec : ExitCondition)
  | shutdown (ending : Ending)
  | removal (path : PathBuf) (err : Option String)
  | notice (n : Notice) (err : Option String)
  | heard (c : ℕ) (m : Message)

namespace World

variable {w w' : World} {parent : Proc} {triggers : List (Trigger × ExitCondition)}
  {notifier : Option (List Notice)}

/-- A notice is recorded if notices are enabled. -/
def report (w : World) (n : Notice) (err : Option String) : List Entry :=
  if w.notifier.isSome then [.notice n err] else []

/-- What a step of `monitor` does, apart from the beginning of a shutdown. -/
def deeds (w : World) (io : Option String) : List Entry :=
  match w.point with
  | .initializing => w.report .ready io
  | .polling =>
    match pollTriggers w.runState w.triggers with
    | some (.ok (r, ec), _) => [.triggered r.exitReason ec]
    | _ => []
  | .closeUsed _ _ => [.closedUsed]
  | .stopAll ec _ => [.published ec]
  | .cleanUp _ =>
    match w.triggers with
    | (.uds path _, _) :: _ => [.removal path io]
    | _ => []
  | .notifyStopping _ => w.report .stopping io
  | .reloading _ => w.report .reloading io
  | .awaiting n _ => (w.result n).toList.map .attempted
  | .snapshot _ | .returned _ => []

/-- The step from `w` to `w'` begins a shutdown. -/
def begins (w w' : World) : List Entry :=
  match w.point, w'.point with
  | .cleanUp _, _ => []
  | _, .cleanUp ending => [.shutdown ending]
  | _, _ => []

/-- What the child of attempt `c` can say: it holds its builder, which can ask for more
time, or its `ready` has returned after writing `OK`, and its monitor runs. -/
def speaks (w : World) (c : ℕ) (m : Message) : Bool :=
  c < w.attempts ∧ (w.family.sys.comp c).child.alive ∧
    (w.family.prog c = .fresh ∧ m = .extendTimeouts ∨
      w.family.prog c = .notified ∧ (w.family.sys.comp c).written = okBytes)

end World

/-- What can happen: an event of the world, or a child talks to systemd. -/
inductive Happening
  | own (e : World.Event)
  | speak (c : ℕ) (m : Message)

/-- One step. -/
def World.happen (w : World) : Happening → Option World
  | .own e => w.step e
  | .speak c m => if w.speaks c m then some w else none

/-- What is recorded of a step. -/
def World.entries (w : World) : Happening → World → List Entry
  | .own (.monitor io), w' => w.deeds io ++ w.begins w'
  | .own _, _ => []
  | .speak c m, _ => [.heard c m]

/-- The world with children that talk to systemd. -/
def talking (parent : Proc) (triggers : List (Trigger × ExitCondition))
    (notifier : Option (List Notice)) : TransitionSystem World Happening where
  Init := (world parent triggers notifier).Init
  step := World.happen

/-- **The chronicle**: all interleavings, with the record of what has happened. -/
def chronicle (parent : Proc) (triggers : List (Trigger × ExitCondition))
    (notifier : Option (List Notice)) : TransitionSystem (World × List Entry) Happening :=
  (talking parent triggers notifier).recording World.entries

section

variable {w w' : World} {parent : Proc} {triggers : List (Trigger × ExitCondition)}
  {notifier : Option (List Notice)} {r : World × List Entry}
  {G : World × List Entry → Happening → Prop}

/-- What can happen: the world moves, or a child speaks and the world stays as it is. -/
theorem World.happen_eq_some {e : Happening} (h : w.happen e = some w') :
    (∃ ev, e = .own ev ∧ w.step ev = some w') ∨
    (∃ c m, e = .speak c m ∧ w.speaks c m = true ∧ w' = w) := by
  match e with
  | .own ev => exact .inl ⟨ev, rfl, h⟩
  | .speak c m =>
    simp only [World.happen] at h
    split at h
    · rename_i hspeaks
      cases h
      exact .inr ⟨c, m, rfl, hspeaks, rfl⟩
    · cases h

end

/-! ## The steps of the monitor -/

/-- What comes before the clean-up of the triggers: `quit`, unless `monitor` gives up. -/
def Ending.opening : Ending → List Entry
  | .failed _ => []
  | .fullStop _ => [.closedUsed, .published .stop]
  | .partialStop _ => [.closedUsed, .published .partialStop]

/-- The shutdown sends a last notice. -/
def Ending.notifies : Ending → Bool
  | .partialStop _ => false
  | _ => true

/-- The end of a partial stop. -/
def partialMode (w : World) : ExitMode :=
  if w.notifier.isSome then .partialStopWithSystemd else .partialStop

namespace World

variable {w w' : World}

/-- **The single steps of `monitor`**: where it stands after the step, what triggers it has
left and what the step records. -/
inductive Turn (w : World) : Point → List (ExitReason × ExitCondition) → List Entry → Prop
  | ready : w.point = .initializing → Turn w .polling (sources w.triggers) (w.report .ready none)
  | unready {e : String} : w.point = .initializing → w.notifier.isSome = true →
      Turn w (.returned (.error e)) (sources w.triggers) [.notice .ready (some e)]
  | upgrade {reason : ExitReason} : w.point = .polling →
      Turn w (.reloading reason) (sources w.triggers) [.triggered reason .upgrade]
  | stop {reason : ExitReason} {ec : ExitCondition} : w.point = .polling → ec ≠ .upgrade →
      Turn w (.closeUsed ec reason) (sources w.triggers) [.triggered reason ec]
  | pollFailed {msg : String} : w.point = .polling →
      Turn w (.cleanUp (.failed msg)) (sources w.triggers) [.shutdown (.failed msg)]
  | closeUsed {ec : ExitCondition} {reason : ExitReason} : w.point = .closeUsed ec reason →
      Turn w (.stopAll ec reason) (sources w.triggers) [.closedUsed]
  | upgraded {reason : ExitReason} : w.point = .stopAll .upgrade reason →
      Turn w (.returned (.ok (.upgrade, reason))) (sources w.triggers) [.published .upgrade]
  | stopped {reason : ExitReason} : w.point = .stopAll .stop reason →
      Turn w (.cleanUp (.fullStop reason)) (sources w.triggers)
        [.published .stop, .shutdown (.fullStop reason)]
  | partiallyStopped {reason : ExitReason} : w.point = .stopAll .partialStop reason →
      Turn w (.cleanUp (.partialStop reason)) (sources w.triggers)
        [.published .partialStop, .shutdown (.partialStop reason)]
  | skip {ending : Ending} {kind : ℕ} {ec : ExitCondition}
      {rest : List (ExitReason × ExitCondition)} : w.point = .cleanUp ending →
      sources w.triggers = (.signal kind, ec) :: rest → Turn w (.cleanUp ending) rest []
  | remove {ending : Ending} {path : PathBuf} {ec : ExitCondition}
      {rest : List (ExitReason × ExitCondition)} : w.point = .cleanUp ending →
      sources w.triggers = (.unixListener path, ec) :: rest →
      Turn w (.cleanUp ending) rest [.removal path none]
  | removeFailed {ending : Ending} {path : PathBuf} {ec : ExitCondition} {e : String}
      {rest : List (ExitReason × ExitCondition)} : w.point = .cleanUp ending →
      sources w.triggers = (.unixListener path, ec) :: rest →
      Turn w (.returned (.error e)) [] [.removal path (some e)]
  | partialDone {reason : ExitReason} : w.point = .cleanUp (.partialStop reason) →
      sources w.triggers = [] → Turn w (.returned (.ok (partialMode w, reason))) [] []
  | cleaned {ending : Ending} : w.point = .cleanUp ending → ending.notifies = true →
      sources w.triggers = [] → Turn w (.notifyStopping ending) [] []
  | stopping {ending : Ending} : w.point = .notifyStopping ending →
      Turn w (.returned ending.result) (sources w.triggers) (w.report .stopping none)
  | unstopping {ending : Ending} {e : String} : w.point = .notifyStopping ending →
      w.notifier.isSome = true →
      Turn w (.returned (.error e)) (sources w.triggers) [.notice .stopping (some e)]
  | reloading {reason : ExitReason} : w.point = .reloading reason →
      Turn w (.snapshot reason) (sources w.triggers) (w.report .reloading none)
  | unreloading {reason : ExitReason} {e msg : String} : w.point = .reloading reason →
      w.notifier.isSome = true →
      Turn w (.cleanUp (.failed msg)) (sources w.triggers)
        [.notice .reloading (some e), .shutdown (.failed msg)]
  | snapshot {reason : ExitReason} : w.point = .snapshot reason →
      Turn w (.awaiting w.attempts reason) (sources w.triggers) []
  | accept {n : ℕ} {reason : ExitReason} : w.point = .awaiting n reason →
      w.result n = some (.ok ()) →
      Turn w (.closeUsed .upgrade reason) (sources w.triggers) [.attempted (.ok ())]
  | retry {n : ℕ} {reason : ExitReason} {e : UpgradeError} : w.point = .awaiting n reason →
      w.result n = some (.error e) →
      Turn w .initializing (sources w.triggers) [.attempted (.error e)]
  | lost {n : ℕ} {reason : ExitReason} {msg : String} : w.point = .awaiting n reason →
      (w.family.sys.comp n).main = .panicked →
      Turn w (.cleanUp (.failed msg)) (sources w.triggers) [.shutdown (.failed msg)]

/-- A notice that is sent, or that is not because notices are disabled, or that fails. -/
theorem notify_cases (w : World) (notice : Notice) (io : Option String) (next : Point)
    (failed : String → Point) :
    (w.notify notice io next failed).notifier.isSome = w.notifier.isSome ∧
    (w.notify notice io next failed).triggers = w.triggers ∧
    ((w.notify notice io next failed).point = next ∧
        w.report notice io = w.report notice none ∨
      ∃ e, io = some e ∧ w.notifier.isSome = true ∧
        (w.notify notice io next failed).point = failed e) := by
  unfold notify report
  split
  · rename_i hnone
    simp [hnone]
  · rename_i log hsome
    cases io <;> simp [hsome]

theorem turn_polling {io : Option String} (hpoint : w.point = .polling)
    (h : w.monitor io = some w') :
    w.Turn w'.point (sources w'.triggers) (w.deeds io ++ w.begins w') ∧
      w'.notifier.isSome = w.notifier.isSome := by
  simp only [monitor, hpoint] at h
  split at h
  · cases h
  · rename_i r ec ts hpoll
    cases h
    refine ⟨?_, rfl⟩
    simp only [sources_pollTriggers hpoll]
    cases ec with
    | upgrade => simpa [deeds, begins, hpoint, hpoll, dispatch] using Turn.upgrade hpoint
    | stop => simpa [deeds, begins, hpoint, hpoll, dispatch] using Turn.stop hpoint (by simp)
    | partialStop =>
      simpa [deeds, begins, hpoint, hpoll, dispatch] using Turn.stop hpoint (by simp)
  · rename_i e ts hpoll
    cases h
    refine ⟨?_, rfl⟩
    simp only [sources_pollTriggers hpoll]
    simpa [deeds, begins, hpoint, hpoll] using Turn.pollFailed hpoint

theorem turn_cleanUp {io : Option String} {ending : Ending} (hpoint : w.point = .cleanUp ending)
    (h : w.monitor io = some w') :
    w.Turn w'.point (sources w'.triggers) (w.deeds io ++ w.begins w') ∧
      w'.notifier.isSome = w.notifier.isSome := by
  simp only [monitor, hpoint] at h
  split at h
  · rename_i htriggers
    have hnil : sources w.triggers = [] := by rw [htriggers]; rfl
    split at h <;> cases h <;> refine ⟨?_, rfl⟩
    · simpa [deeds, begins, hpoint, htriggers, sources, partialMode] using
        Turn.partialDone hpoint hnil
    · rename_i hne
      have hnotifies : ending.notifies = true := by
        cases ending <;> first | rfl | exact absurd rfl (hne _)
      simpa [deeds, begins, hpoint, htriggers, sources] using Turn.cleaned hpoint hnotifies hnil
  · rename_i htriggers
    cases h
    refine ⟨?_, rfl⟩
    simpa [deeds, begins, hpoint, htriggers] using
      Turn.skip hpoint (by rw [htriggers]; rfl)
  · rename_i htriggers
    split at h <;> cases h <;> refine ⟨?_, rfl⟩
    · simpa [deeds, begins, hpoint, htriggers] using
        Turn.remove hpoint (by rw [htriggers]; rfl)
    · simpa [deeds, begins, hpoint, htriggers, sources] using
        Turn.removeFailed hpoint (by rw [htriggers]; rfl)

theorem turn_awaiting {io : Option String} {n : ℕ} {reason : ExitReason}
    (hpoint : w.point = .awaiting n reason) (h : w.monitor io = some w') :
    w.Turn w'.point (sources w'.triggers) (w.deeds io ++ w.begins w') ∧
      w'.notifier.isSome = w.notifier.isSome := by
  simp only [monitor, hpoint] at h
  split at h
  · rename_i hmain
    cases h
    refine ⟨?_, rfl⟩
    simpa [deeds, begins, hpoint, result, hmain, problem, Main.result] using Turn.lost hpoint hmain
  · split at h
    · cases h
    · rename_i hres
      cases h
      exact ⟨by simpa [deeds, begins, hpoint, result, hres] using Turn.accept hpoint hres, rfl⟩
    · rename_i e hres
      cases h
      exact ⟨by simpa [deeds, begins, hpoint, result, hres] using Turn.retry hpoint hres, rfl⟩

/-- A step that sends a notice does one of two things: the notice is sent, or is not because
notices are disabled; or sending it fails. -/
theorem turn_notify {notice : Notice} {io : Option String} {next : Point}
    {failed : String → Point} (hdeeds : w.deeds io = w.report notice io)
    (hsent : ∀ v : World, v.point = next →
      w.Turn next (sources w.triggers) (w.report notice none ++ w.begins v))
    (hfailed : ∀ (v : World) (e : String), v.point = failed e → w.notifier.isSome = true →
      w.Turn (failed e) (sources w.triggers) (.notice notice (some e) :: w.begins v)) :
    w.Turn (w.notify notice io next failed).point
        (sources (w.notify notice io next failed).triggers)
        (w.deeds io ++ w.begins (w.notify notice io next failed)) ∧
      (w.notify notice io next failed).notifier.isSome = w.notifier.isSome := by
  obtain ⟨hsome, htriggers, ⟨hp, hreport⟩ | ⟨e, rfl, henabled, hp⟩⟩ :=
    w.notify_cases notice io next failed
  · refine ⟨?_, hsome⟩
    rw [htriggers, hdeeds, hreport, hp]
    exact hsent _ hp
  · refine ⟨?_, hsome⟩
    have hreport : w.report notice (some e) = [.notice notice (some e)] := by
      simp [report, henabled]
    rw [htriggers, hdeeds, hreport, hp]
    exact hfailed _ e hp henabled

/-- **What a step of `monitor` does and records.** -/
theorem turn_of_monitor {io : Option String} (h : w.monitor io = some w') :
    w.Turn w'.point (sources w'.triggers) (w.deeds io ++ w.begins w') ∧
      w'.notifier.isSome = w.notifier.isSome := by
  cases hpoint : w.point with
  | polling => exact turn_polling hpoint h
  | cleanUp ending => exact turn_cleanUp hpoint h
  | awaiting n reason => exact turn_awaiting hpoint h
  | initializing =>
    simp only [monitor, hpoint, Option.some.injEq] at h
    subst h
    refine turn_notify (by simp [deeds, hpoint]) (fun v hv => ?_) fun v e hv hsome => ?_
    · simpa [begins, hpoint, hv] using Turn.ready hpoint
    · simpa [begins, hpoint, hv] using Turn.unready hpoint hsome
  | notifyStopping ending =>
    simp only [monitor, hpoint, Option.some.injEq] at h
    subst h
    refine turn_notify (by simp [deeds, hpoint]) (fun v hv => ?_) fun v e hv hsome => ?_
    · simpa [begins, hpoint, hv] using Turn.stopping hpoint
    · simpa [begins, hpoint, hv] using Turn.unstopping hpoint hsome
  | reloading reason =>
    simp only [monitor, hpoint, Option.some.injEq] at h
    subst h
    refine turn_notify (by simp [deeds, hpoint]) (fun v hv => ?_) fun v e hv hsome => ?_
    · simpa [begins, hpoint, hv] using Turn.reloading hpoint
    · simpa [begins, hpoint, hv, problem] using Turn.unreloading hpoint hsome
  | closeUsed ec reason =>
    simp only [monitor, hpoint, Option.some.injEq] at h
    subst h
    exact ⟨by simpa [deeds, begins, hpoint] using Turn.closeUsed hpoint, rfl⟩
  | stopAll ec reason =>
    simp only [monitor, hpoint, Option.some.injEq] at h
    subst h
    refine ⟨?_, rfl⟩
    cases ec with
    | upgrade => simpa [deeds, begins, hpoint, afterQuit] using Turn.upgraded hpoint
    | stop => simpa [deeds, begins, hpoint, afterQuit] using Turn.stopped hpoint
    | partialStop =>
      simpa [deeds, begins, hpoint, afterQuit] using Turn.partiallyStopped hpoint
  | snapshot reason =>
    simp only [monitor, hpoint, Option.some.injEq] at h
    subst h
    exact ⟨by simpa [deeds, begins, hpoint] using Turn.snapshot hpoint, rfl⟩
  | returned res =>
    simp only [monitor, hpoint] at h
    cases h

end World

/-! ## Invariants of the chronicle -/

section

variable {parent : Proc} {triggers : List (Trigger × ExitCondition)}
  {notifier : Option (List Notice)} {r : World × List Entry}
  {G : World × List Entry → Happening → Prop}

/-- **The invariant rule for chronicles**: a turn of the monitor, with what it records,
anything beside it, and a message of a child. -/
theorem chronicle_invariant {I : World → List Entry → Prop}
    (hr : (chronicle parent triggers notifier).ReachableVia G r)
    (h0 : I (.init parent triggers notifier) [])
    (hturn : ∀ w log io w' es, (chronicle parent triggers notifier).ReachableVia G (w, log) →
      I w log → G (w, log) (.own (.monitor io)) → w.monitor io = some w' →
      w.Turn w'.point (sources w'.triggers) es → w'.notifier.isSome = w.notifier.isSome →
      I w' (log ++ es))
    (hbeside : ∀ w log e w', (chronicle parent triggers notifier).ReachableVia G (w, log) →
      I w log → w.step e = some w' → w'.point = w.point →
      sources w'.triggers = sources w.triggers → w'.notifier = w.notifier →
      w'.runState = w.runState → w'.attempts = w.attempts → I w' log)
    (hheard : ∀ w log c m, (chronicle parent triggers notifier).ReachableVia G (w, log) →
      I w log → w.speaks c m = true → I w (log ++ [.heard c m])) : I r.1 r.2 := by
  refine hr.recorded (fun w hw => ?_) fun w log e w' hr hI hG h => ?_
  · rw [hw.2.2]
    exact h0
  · rcases World.happen_eq_some h with ⟨ev, rfl, hs⟩ | ⟨c, m, rfl, hspeaks, rfl⟩
    · by_cases hev : ∃ io, ev = .monitor io
      · obtain ⟨io, rfl⟩ := hev
        obtain ⟨hT, hsome⟩ := World.turn_of_monitor hs
        exact hturn w log io w' _ hr hI hG hs hT hsome
      · have hne : ∀ io, ev ≠ .monitor io := fun io heq => hev ⟨io, heq⟩
        obtain ⟨hpoint, hsources, hnotifier, hrun, hattempts⟩ := World.step_beside hs hne
        have hnil : World.entries w (.own ev) w' = [] := by
          cases ev <;> first | rfl | exact absurd rfl (hne _)
        rw [hnil, List.append_nil]
        exact hbeside w log ev w' hr hI hs hpoint hsources hnotifier hrun hattempts
    · exact hheard w' log c m hr hI hspeaks

end

/-! ## Leaving -/

/-- The entry is about leaving. -/
def Entry.departs : Entry → Bool
  | .closedUsed | .published _ | .shutdown _ | .removal _ _ | .notice .stopping _ => true
  | _ => false

/-- What has been recorded of leaving. -/
def departure (log : List Entry) : List Entry := log.filter Entry.departs

/-- The paths of the sockets among the triggers. -/
def paths (srcs : List (ExitReason × ExitCondition)) : List PathBuf :=
  srcs.filterMap fun
    | (.unixListener path, _) => some path
    | _ => none

/-- Their removal, without an error. -/
def cleared (srcs : List (ExitReason × ExitCondition)) : List Entry :=
  (paths srcs).map fun path => .removal path none

/-- A shutdown: `quit`, its beginning, and the removals up to where it has got. -/
def Ending.story (ending : Ending) (done : List (ExitReason × ExitCondition)) : List Entry :=
  ending.opening ++ .shutdown ending :: cleared done

@[simp] theorem paths_nil : paths [] = [] := rfl

@[simp] theorem paths_signal {kind : ℕ} {ec : ExitCondition}
    (srcs : List (ExitReason × ExitCondition)) : paths ((.signal kind, ec) :: srcs) = paths srcs :=
  rfl

@[simp] theorem paths_unixListener {path : PathBuf} {ec : ExitCondition}
    (srcs : List (ExitReason × ExitCondition)) :
    paths ((.unixListener path, ec) :: srcs) = path :: paths srcs := rfl

@[simp] theorem paths_append (srcs srcs' : List (ExitReason × ExitCondition)) :
    paths (srcs ++ srcs') = paths srcs ++ paths srcs' := List.filterMap_append

theorem story_signal (ending : Ending) (done : List (ExitReason × ExitCondition)) (kind : ℕ)
    (ec : ExitCondition) : ending.story (done ++ [(.signal kind, ec)]) = ending.story done := by
  simp [Ending.story, cleared]

theorem story_unixListener (ending : Ending) (done : List (ExitReason × ExitCondition))
    (path : PathBuf) (ec : ExitCondition) :
    ending.story (done ++ [(.unixListener path, ec)])
      = ending.story done ++ [.removal path none] := by
  simp [Ending.story, cleared]

@[simp] theorem departure_append (log es : List Entry) :
    departure (log ++ es) = departure log ++ departure es := List.filter_append ..

/-- What a run that has returned has recorded of leaving. -/
inductive Ended (srcs : List (ExitReason × ExitCondition)) (enabled : Bool) :
    UpgradeResult → List Entry → Prop
  | unready {e : String} : Ended srcs enabled (.error e) []
  | upgraded {reason : ExitReason} :
      Ended srcs enabled (.ok (.upgrade, reason)) [.closedUsed, .published .upgrade]
  | broken {ending : Ending} {done rest : List (ExitReason × ExitCondition)} {path : PathBuf}
      {ec : ExitCondition} {e : String} : srcs = done ++ (.unixListener path, ec) :: rest →
      Ended srcs enabled (.error e) (ending.story done ++ [.removal path (some e)])
  | partially {reason : ExitReason} {mode : ExitMode} :
      mode = (if enabled then .partialStopWithSystemd else .partialStop) →
      Ended srcs enabled (.ok (mode, reason)) (Ending.story (.partialStop reason) srcs)
  | stopped {ending : Ending} : ending.notifies = true →
      Ended srcs enabled ending.result
        (ending.story srcs ++ if enabled then [.notice .stopping none] else [])
  | unstopped {ending : Ending} {e : String} : ending.notifies = true → enabled = true →
      Ended srcs enabled (.error e) (ending.story srcs ++ [.notice .stopping (some e)])

/-- What has been recorded of leaving, by the position of `monitor`. -/
inductive Departed (srcs : List (ExitReason × ExitCondition)) (w : World) : List Entry → Prop
  | serving : w.point.serving = true → sources w.triggers = srcs → Departed srcs w []
  | quitting {ec : ExitCondition} {reason : ExitReason} : w.point = .closeUsed ec reason →
      sources w.triggers = srcs → Departed srcs w []
  | closed {ec : ExitCondition} {reason : ExitReason} : w.point = .stopAll ec reason →
      sources w.triggers = srcs → Departed srcs w [.closedUsed]
  | cleaning {ending : Ending} (done : List (ExitReason × ExitCondition)) :
      w.point = .cleanUp ending → srcs = done ++ sources w.triggers →
      Departed srcs w (ending.story done)
  | notifying {ending : Ending} : w.point = .notifyStopping ending → ending.notifies = true →
      Departed srcs w (ending.story srcs)
  | returned {res : UpgradeResult} {es : List Entry} : w.point = .returned res →
      Ended srcs w.notifier.isSome res es → Departed srcs w es

namespace Departed

variable {srcs : List (ExitReason × ExitCondition)} {w w' : World} {es : List Entry}

/-- It depends on the position, the triggers and whether notices are enabled. -/
theorem congr (h : Departed srcs w es) (hpoint : w'.point = w.point)
    (hsources : sources w'.triggers = sources w.triggers)
    (hsome : w'.notifier.isSome = w.notifier.isSome) : Departed srcs w' es := by
  cases h with
  | serving hp hs => exact .serving (hpoint ▸ hp) (hsources.trans hs)
  | quitting hp hs => exact .quitting (hpoint.trans hp) (hsources.trans hs)
  | closed hp hs => exact .closed (hpoint.trans hp) (hsources.trans hs)
  | cleaning done hp hs => exact .cleaning done (hpoint.trans hp) (hsources ▸ hs)
  | notifying hp hn => exact .notifying (hpoint.trans hp) hn
  | returned hp he => exact .returned (hpoint.trans hp) (hsome ▸ he)

/-- In its loop, `monitor` has recorded nothing of leaving. -/
theorem of_serving (h : Departed srcs w es) (hpoint : w.point.serving = true) :
    es = [] ∧ sources w.triggers = srcs := by
  cases h <;> simp_all [Point.serving]

theorem of_closeUsed {ec : ExitCondition} {reason : ExitReason} (h : Departed srcs w es)
    (hpoint : w.point = .closeUsed ec reason) : es = [] ∧ sources w.triggers = srcs := by
  cases h <;> simp_all

theorem of_stopAll {ec : ExitCondition} {reason : ExitReason} (h : Departed srcs w es)
    (hpoint : w.point = .stopAll ec reason) :
    es = [.closedUsed] ∧ sources w.triggers = srcs := by
  cases h <;> simp_all [Point.serving]

theorem of_cleanUp {ending : Ending} (h : Departed srcs w es)
    (hpoint : w.point = .cleanUp ending) :
    ∃ done, srcs = done ++ sources w.triggers ∧ es = ending.story done := by
  cases h <;> simp_all [Point.serving]

theorem of_notifyStopping {ending : Ending} (h : Departed srcs w es)
    (hpoint : w.point = .notifyStopping ending) :
    ending.notifies = true ∧ es = ending.story srcs := by
  cases h <;> simp_all [Point.serving]

/-- The other notices are not about leaving. -/
theorem departure_report_of_ne (w : World) {n : Notice} {err : Option String}
    (hn : n ≠ .stopping) : departure (w.report n err) = [] := by
  unfold World.report
  split
  · match n with
    | .ready => rfl
    | .reloading => rfl
    | .stopping => exact absurd rfl hn
  · rfl

theorem departure_report_stopping (w : World) (err : Option String) :
    departure (w.report .stopping err)
      = if w.notifier.isSome then [.notice .stopping err] else [] := by
  unfold World.report
  split <;> rfl

/-- **Step lemma**: the turns of the monitor. -/
theorem turn {ent : List Entry} (h : Departed srcs w es)
    (hT : w.Turn w'.point (sources w'.triggers) ent)
    (hsome : w'.notifier.isSome = w.notifier.isSome) : Departed srcs w' (es ++ departure ent) := by
  generalize hp' : w'.point = p' at hT
  generalize hs' : sources w'.triggers = s' at hT
  cases hT with
  | ready hp =>
    obtain ⟨rfl, hs⟩ := h.of_serving (by rw [hp]; rfl)
    rw [departure_report_of_ne w (by simp)]
    exact .serving (by rw [hp']; rfl) (hs'.trans hs)
  | reloading hp =>
    obtain ⟨rfl, hs⟩ := h.of_serving (by rw [hp]; rfl)
    rw [departure_report_of_ne w (by simp)]
    exact .serving (by rw [hp']; rfl) (hs'.trans hs)
  | unready hp =>
    obtain ⟨rfl, -⟩ := h.of_serving (by rw [hp]; rfl)
    exact .returned hp' .unready
  | upgrade hp | snapshot hp | retry hp =>
    obtain ⟨rfl, hs⟩ := h.of_serving (by rw [hp]; rfl)
    exact .serving (by rw [hp']; rfl) (hs'.trans hs)
  | stop hp | accept hp =>
    obtain ⟨rfl, hs⟩ := h.of_serving (by rw [hp]; rfl)
    exact .quitting hp' (hs'.trans hs)
  | pollFailed hp | unreloading hp | lost hp =>
    obtain ⟨rfl, hs⟩ := h.of_serving (by rw [hp]; rfl)
    exact .cleaning [] hp' (by rw [hs', hs]; rfl)
  | closeUsed hp =>
    obtain ⟨rfl, hs⟩ := h.of_closeUsed hp
    exact .closed hp' (hs'.trans hs)
  | upgraded hp =>
    obtain ⟨rfl, hs⟩ := h.of_stopAll hp
    exact .returned hp' .upgraded
  | stopped hp | partiallyStopped hp =>
    obtain ⟨rfl, hs⟩ := h.of_stopAll hp
    exact .cleaning [] hp' (by rw [hs', hs]; rfl)
  | @skip ending kind ec rest hp hs =>
    obtain ⟨done, rfl, rfl⟩ := h.of_cleanUp hp
    rw [hs, List.append_cons]
    have hnil : ending.story done ++ departure []
        = ending.story (done ++ [(.signal kind, ec)]) := by
      rw [story_signal]
      exact List.append_nil _
    rw [hnil]
    exact .cleaning _ hp' (by rw [hs'])
  | @remove ending path ec rest hp hs =>
    obtain ⟨done, rfl, rfl⟩ := h.of_cleanUp hp
    rw [hs, List.append_cons]
    have hone : ending.story done ++ departure [.removal path none]
        = ending.story (done ++ [(.unixListener path, ec)]) := by
      rw [story_unixListener]
      rfl
    rw [hone]
    exact .cleaning _ hp' (by rw [hs'])
  | @removeFailed ending path ec e rest hp hs =>
    obtain ⟨done, rfl, rfl⟩ := h.of_cleanUp hp
    exact .returned hp' (.broken (by rw [hs]))
  | @partialDone reason hp hs =>
    obtain ⟨done, rfl, rfl⟩ := h.of_cleanUp hp
    rw [hs, List.append_nil]
    have hnil : Ending.story (.partialStop reason) done ++ departure []
        = Ending.story (.partialStop reason) done := List.append_nil _
    rw [hnil]
    exact .returned hp' (.partially (by rw [hsome]; rfl))
  | @cleaned ending hp hn hs =>
    obtain ⟨done, rfl, rfl⟩ := h.of_cleanUp hp
    rw [hs, List.append_nil]
    have hnil : ending.story done ++ departure [] = ending.story done := List.append_nil _
    rw [hnil]
    exact .notifying hp' hn
  | stopping hp =>
    obtain ⟨hn, rfl⟩ := h.of_notifyStopping hp
    rw [departure_report_stopping, ← hsome]
    exact .returned hp' (.stopped hn)
  | unstopping hp hn =>
    obtain ⟨hnotifies, rfl⟩ := h.of_notifyStopping hp
    exact .returned hp' (.unstopped hnotifies (hsome.trans hn))

end Departed

/-- **What is recorded of leaving**, in every state reached. -/
theorem departed_of_reachable {parent : Proc} {triggers : List (Trigger × ExitCondition)}
    {notifier : Option (List Notice)} {G : World × List Entry → Happening → Prop}
    {w : World} {log : List Entry}
    (hr : (chronicle parent triggers notifier).ReachableVia G (w, log)) :
    Departed (sources triggers) w (departure log) := by
  refine chronicle_invariant (I := fun w log => Departed (sources triggers) w (departure log))
    hr ?_ ?_ ?_ ?_
  · exact .serving rfl rfl
  · intro w log io w' es _ hI _ _ hT hsome
    rw [departure_append]
    exact hI.turn hT hsome
  · intro w log e w' _ hI _ hpoint hsources hnotifier _ _
    exact hI.congr hpoint hsources (congrArg Option.isSome hnotifier)
  · intro w log c m _ hI _
    have hnil : departure (log ++ [.heard c m]) = departure log := by
      rw [departure_append]
      exact List.append_nil _
    rw [hnil]
    exact hI

/-! ## Why the monitor stands where it stands -/

/-- The condition that goes with an exit mode. -/
def ExitMode.condition : ExitMode → ExitCondition
  | .upgrade => .upgrade
  | .fullStop => .stop
  | .partialStop | .partialStopWithSystemd => .partialStop

/-- What has triggered a shutdown, unless `monitor` gives up. -/
def Ending.cause : Ending → Option (ExitReason × ExitCondition)
  | .failed _ => none
  | .fullStop reason => some (reason, .stop)
  | .partialStop reason => some (reason, .partialStop)

/-- What has brought `monitor` where it stands. -/
def Point.cause : Point → Option (ExitReason × ExitCondition)
  | .reloading reason | .snapshot reason | .awaiting _ reason => some (reason, .upgrade)
  | .closeUsed ec reason | .stopAll ec reason => some (reason, ec)
  | .cleanUp ending | .notifyStopping ending => ending.cause
  | .returned (.ok (mode, reason)) => some (reason, mode.condition)
  | .initializing | .polling | .returned (.error _) => none

/-- `monitor` leaves because an attempt has succeeded. -/
def Point.accepted : Point → Bool
  | .closeUsed .upgrade _ | .stopAll .upgrade _ | .returned (.ok (.upgrade, _)) => true
  | _ => false

/-- What the triggers said, in order. -/
def triggerings (log : List Entry) : List (ExitReason × ExitCondition) :=
  log.filterMap fun
    | .triggered reason ec => some (reason, ec)
    | _ => none

/-- The results of the attempts, in order. -/
def results (log : List Entry) : List UpgradeFinished :=
  log.filterMap fun
    | .attempted res => some res
    | _ => none

@[simp] theorem triggerings_append (log es : List Entry) :
    triggerings (log ++ es) = triggerings log ++ triggerings es := List.filterMap_append

@[simp] theorem results_append (log es : List Entry) :
    results (log ++ es) = results log ++ results es := List.filterMap_append

/-- The last trigger is the one that has brought `monitor` where it stands, and it leaves
for an upgrade exactly when the last attempt has succeeded. -/
structure Informed (point : Point) (log : List Entry) : Prop where
  cause : ∀ c, point.cause = some c → (triggerings log).getLast? = some c
  accepted : point.accepted = true ↔ (results log).getLast? = some (.ok ())

/-- Entries that say nothing about triggers and results. -/
theorem Informed.go {p p' : Point} {log es : List Entry} (h : Informed p log)
    (htriggered : triggerings es = []) (hresults : results es = [])
    (hcause : ∀ c, p'.cause = some c → p.cause = some c) (haccepted : p'.accepted = p.accepted) :
    Informed p' (log ++ es) := by
  constructor
  · intro c hc
    rw [triggerings_append, htriggered, List.append_nil]
    exact h.cause c (hcause c hc)
  · rw [results_append, hresults, List.append_nil, haccepted]
    exact h.accepted

theorem triggerings_report (w : World) (n : Notice) (err : Option String) :
    triggerings (w.report n err) = [] := by
  unfold World.report
  split <;> rfl

theorem results_report (w : World) (n : Notice) (err : Option String) :
    results (w.report n err) = [] := by
  unfold World.report
  split <;> rfl

/-- **Step lemma**: the turns of the monitor. -/
theorem Informed.turn {w : World} {p' : Point} {srcs : List (ExitReason × ExitCondition)}
    {log es : List Entry} (h : Informed w.point log) (hT : w.Turn p' srcs es) :
    Informed p' (log ++ es) := by
  cases hT with
  | ready hp | reloading hp =>
    exact h.go (triggerings_report ..) (results_report ..) (by simp [hp, Point.cause])
      (by rw [hp]; rfl)
  | @stopping ending hp =>
    refine h.go (triggerings_report ..) (results_report ..) ?_ ?_ <;> rw [hp] <;>
      cases ending <;> simp [Point.cause, Ending.cause, Ending.result, ExitMode.condition,
        Point.accepted]
  | @stop reason ec hp hec =>
    constructor
    · intro c hc
      rw [triggerings_append]
      simpa [triggerings, Point.cause] using hc
    · have hres : results (log ++ [.triggered reason ec]) = results log := by simp [results]
      rw [hres, ← h.accepted, hp]
      cases ec <;> simp_all [Point.accepted]
  | @upgrade reason hp =>
    constructor
    · intro c hc
      rw [triggerings_append]
      simpa [triggerings, Point.cause] using hc
    · have hres : results (log ++ [.triggered reason .upgrade]) = results log := by simp [results]
      rw [hres, ← h.accepted, hp]
      rfl
  | @accept n reason hp hres =>
    constructor
    · intro c hc
      have htr : triggerings (log ++ [.attempted (.ok ())]) = triggerings log := by
        simp [triggerings]
      rw [htr]
      exact h.cause c (by rw [hp]; exact hc)
    · simp [Point.accepted, results]
  | @retry n reason e hp hres =>
    constructor
    · intro c hc
      cases hc
    · simp [Point.accepted, results]
  | partialDone hp hs =>
    refine h.go rfl rfl ?_ ?_ <;> rw [hp] <;> unfold partialMode <;> split <;>
      simp [Point.cause, Ending.cause, ExitMode.condition, Point.accepted]
  | closeUsed hp =>
    refine h.go rfl rfl ?_ ?_ <;> rw [hp]
    · exact fun c hc => hc
    · rename_i ec _
      cases ec <;> rfl
  | skip hp hs | remove hp hs =>
    exact h.go rfl rfl (by simp [hp]) (by rw [hp])
  | unready hp | pollFailed hp | upgraded hp | stopped hp | partiallyStopped hp
  | removeFailed hp | cleaned hp | unstopping hp | unreloading hp | snapshot hp | lost hp =>
    exact h.go rfl rfl (by simp [hp, Point.cause, Ending.cause, ExitMode.condition])
      (by rw [hp]; rfl)

end Upgrader
