/-
# How a monitor ends

What the chronicle of a run says about its end:

* `exit_mode_and_effects` : a run that returns `Ok` has had exactly the effects that go
  with its exit mode, in the right order.
* `shutdown_completes_iff` : a shutdown tries to remove every socket of a trigger, and a
  full stop sends its last notice, as long as no removal fails but the last; any other
  failure ends the shutdown early.
* `quit_before_shutdown_iff` : the registry is closed and the run state published before a
  shutdown begins, as long as `monitor` does not give up; when it does, it shuts down
  without either.
-/
import Ecdysis.Chronicle
import Ecdysis.ZeroDowntime

open Executioner

namespace Upgrader

/-! ## Reading the chronicle -/

/-- `quit` and the beginning of a shutdown. -/
def Entry.isMilestone : Entry → Bool
  | .closedUsed | .published _ | .shutdown _ => true
  | _ => false

/-- The paths that were to be removed, in order, with the errors. -/
def removals (log : List Entry) : List (PathBuf × Option String) :=
  log.filterMap fun
    | .removal path err => some (path, err)
    | _ => none

/-- The last notices that were sent, with their errors. -/
def farewells (log : List Entry) : List (Option String) :=
  log.filterMap fun
    | .notice .stopping err => some err
    | _ => none

section

variable {log : List Entry} {srcs : List (ExitReason × ExitCondition)}

/-- What concerns leaving only can be read off the departure. -/
theorem filter_departure {p : Entry → Bool} (hp : ∀ e, p e = true → e.departs = true) :
    (departure log).filter p = log.filter p := by
  rw [departure, List.filter_filter]
  refine List.filter_congr fun e _ => ?_
  by_cases h : p e = true
  · simp [h, hp e h]
  · simp [h]

theorem filterMap_departure {β : Type} {f : Entry → Option β}
    (hf : ∀ e, e.departs = false → f e = none) :
    (departure log).filterMap f = log.filterMap f := by
  rw [departure, List.filterMap_filter]
  refine List.filterMap_congr fun e _ => ?_
  by_cases h : e.departs = true
  · simp [h]
  · simp [h, hf e (by simpa using h)]

theorem removals_departure (log : List Entry) : removals (departure log) = removals log :=
  filterMap_departure fun e he => by cases e <;> first | rfl | cases he

theorem farewells_departure (log : List Entry) : farewells (departure log) = farewells log :=
  filterMap_departure fun e he => by
    cases e with
    | notice n err => cases n <;> first | rfl | cases he
    | _ => rfl

theorem shutdown_mem_departure {ending : Ending} :
    .shutdown ending ∈ departure log ↔ .shutdown ending ∈ log := by
  simp [departure, Entry.departs]

/-- Removals apart, a story is `quit` and the beginning of the shutdown. -/
theorem filter_story {p : Entry → Bool} (hp : ∀ path, p (.removal path none) = false)
    (ending : Ending) :
    (ending.story srcs).filter p = (ending.opening ++ [Entry.shutdown ending]).filter p := by
  have hcleared : (cleared srcs).filter p = [] := by simp [cleared, hp]
  rw [Ending.story, List.append_cons, List.filter_append, hcleared, List.append_nil]

@[simp] theorem removals_append (log es : List Entry) :
    removals (log ++ es) = removals log ++ removals es := List.filterMap_append

@[simp] theorem farewells_append (log es : List Entry) :
    farewells (log ++ es) = farewells log ++ farewells es := List.filterMap_append

@[simp] theorem removals_story (ending : Ending) :
    removals (ending.story srcs) = (paths srcs).map fun path => (path, none) := by
  have hcleared : removals (cleared srcs) = (paths srcs).map fun path => (path, none) := by
    simp [removals, cleared, List.filterMap_map]
  cases ending <;> simpa [Ending.story, Ending.opening, removals] using hcleared

@[simp] theorem farewells_story (ending : Ending) : farewells (ending.story srcs) = [] := by
  cases ending <;> simp [Ending.story, Ending.opening, farewells, cleared]

theorem shutdown_mem_story {ending ending' : Ending} :
    .shutdown ending ∈ ending'.story srcs ↔ ending = ending' := by
  cases ending' <;> simp [Ending.story, Ending.opening, cleared]

end

/-! ## Exit mode and effects -/

section

variable {parent : Proc} {triggers : List (Trigger × ExitCondition)}
  {notifier : Option (List Notice)} {w : World} {log : List Entry}

/-- It upgrades on a signal, stops on a connection to the socket `s` and stops partially on
one to the socket `p`. -/
def socketTriggers : List (Trigger × ExitCondition) :=
  [(.signal 1 false, .upgrade), (.uds ⟨[0x73]⟩ [], .stop), (.uds ⟨[0x70]⟩ [], .partialStop)]

/-- The process, with notices to systemd, and the record of what it does. -/
abbrev supervised : TransitionSystem (World × List Entry) Happening :=
  chronicle listeningProc socketTriggers (some [])

/-- Its state at the start. -/
abbrev supervisedInit : World × List Entry :=
  (World.init listeningProc socketTriggers (some []), [])

theorem reachable_supervised {r : World × List Entry} {es : List Happening}
    (h : supervised.run supervisedInit es = some r) : supervised.Reachable r :=
  TransitionSystem.reachable_of_run (.init ⟨⟨wf_listeningProc, rfl, rfl⟩, rfl⟩) h

/-- The mode with which `monitor` has returned. -/
def Point.mode : Point → Option ExitMode
  | .returned (.ok (mode, _)) => some mode
  | _ => none

/-- A connection to the socket of trigger `i` is taken, and `quit` runs. -/
def stopBy (i : ℕ) : List World.Event :=
  [.arrive i (.connection (.ok 0)), .monitor none, .monitor none, .monitor none]

/-- A shutdown that is over has tried to remove every socket of a trigger, and a full stop
with notices enabled has sent its last notice, once. -/
def Completed (triggers : List (Trigger × ExitCondition)) (r : World × List Entry) : Prop :=
  ∀ res ending, r.1.point = .returned res → .shutdown ending ∈ r.2 →
    (removals r.2).map Prod.fst = paths (sources triggers) ∧
    (∀ reason, ending = .fullStop reason → r.1.notifier.isSome = true →
      (farewells r.2).length = 1)

/-- The full stop is to be announced to systemd. -/
def Ending.announced (ending : Ending) (enabled : Bool) : Bool :=
  match ending with
  | .fullStop _ => enabled
  | _ => false

/-- A removal fails while there are others to come, or a notice. -/
def CutsShort (r : World × List Entry) (e : Happening) : Prop :=
  ∃ err ending path queue ec ts, e = .own (.monitor (some err)) ∧ r.1.point = .cleanUp ending ∧
    r.1.triggers = (.uds path queue, ec) :: ts ∧
    (paths (sources ts) ≠ [] ∨ ending.announced r.1.notifier.isSome = true)

/-- Completion, read off the departure. -/
theorem completed_iff {res : UpgradeResult} (hreturned : w.point = .returned res) :
    Completed triggers (w, log) ↔ ∀ ending, .shutdown ending ∈ departure log →
      (removals (departure log)).map Prod.fst = paths (sources triggers) ∧
      (ending.announced w.notifier.isSome = true → (farewells (departure log)).length = 1) := by
  simp only [Completed, removals_departure, farewells_departure, shutdown_mem_departure]
  constructor
  · intro h ending hmem
    obtain ⟨hremovals, hfarewells⟩ := h res ending hreturned hmem
    refine ⟨hremovals, fun hannounced => ?_⟩
    cases ending with
    | fullStop reason => exact hfarewells reason rfl hannounced
    | failed msg => cases hannounced
    | partialStop reason => cases hannounced
  · intro h res' ending _ hmem
    obtain ⟨hremovals, hfarewells⟩ := h ending hmem
    refine ⟨hremovals, ?_⟩
    rintro reason rfl hsome
    exact hfarewells hsome

/-- A shutdown that has got to the end of the triggers. -/
theorem completed_story {ending : Ending} {es : List Entry} {res : UpgradeResult}
    (hreturned : w.point = .returned res)
    (hlog : departure log = ending.story (sources triggers) ++ es)
    (hes : es = [] ∧ ending.announced w.notifier.isSome = false ∨
      ∃ err, es = [.notice .stopping err]) : Completed triggers (w, log) := by
  rw [completed_iff hreturned, hlog]
  intro ending' hmem
  have hending : ending' = ending := by
    rcases hes with ⟨rfl, -⟩ | ⟨err, rfl⟩ <;> simpa [shutdown_mem_story] using hmem
  subst hending
  rcases hes with ⟨rfl, hnot⟩ | ⟨err, rfl⟩
  · simp [hnot, Function.comp_def]
  · have hremovals : removals [.notice .stopping err] = [] := rfl
    have hfarewells : farewells [.notice .stopping err] = [err] := rfl
    simp [hremovals, hfarewells, Function.comp_def]

/-- A shutdown that ends with a removal that failed. -/
theorem completed_broken {ending : Ending} {done rest : List (ExitReason × ExitCondition)}
    {path : PathBuf} {ec : ExitCondition} {err : Option String} {res : UpgradeResult}
    (hreturned : w.point = .returned res)
    (hsrcs : sources triggers = done ++ (.unixListener path, ec) :: rest)
    (hlog : departure log = ending.story done ++ [.removal path err]) :
    Completed triggers (w, log) ↔
      paths rest = [] ∧ ending.announced w.notifier.isSome = false := by
  have hremovals : removals [.removal path err] = [(path, err)] := rfl
  have hfarewells : farewells [.removal path err] = [] := rfl
  have hmem : ∀ ending', .shutdown ending' ∈ ending.story done ++ [.removal path err] ↔
      ending' = ending := by
    intro ending'
    simp [shutdown_mem_story]
  rw [completed_iff hreturned, hlog]
  simp only [hmem, removals_append, removals_story, hremovals, farewells_append, farewells_story,
    hfarewells, hsrcs, paths_append, paths_unixListener, forall_eq]
  simp [Function.comp_def]

/-- The triggers behind their sources. -/
theorem triggers_of_sources {ts : List (Trigger × ExitCondition)} {path : PathBuf}
    {ec : ExitCondition} {rest : List (ExitReason × ExitCondition)}
    (h : sources ts = (.unixListener path, ec) :: rest) :
    ∃ queue ts', ts = (.uds path queue, ec) :: ts' ∧ sources ts' = rest := by
  obtain ⟨⟨t, ec'⟩, ts', rfl, ht, hrest⟩ := List.map_eq_cons_iff.mp h
  cases t with
  | signal kind pending => cases ht
  | uds path' queue =>
    cases ht
    exact ⟨queue, ts', rfl, hrest⟩

/-- A removal that succeeds lets the clean-up go on. -/
theorem point_of_removed {w' : World} {ending : Ending} {path : PathBuf}
    {queue : List (Except String ℕ)} {ec : ExitCondition} {ts : List (Trigger × ExitCondition)}
    (hpoint : w.point = .cleanUp ending) (htriggers : w.triggers = (.uds path queue, ec) :: ts)
    (h : w.monitor none = some w') : w'.point = .cleanUp ending := by
  simp only [World.monitor, hpoint, htriggers, Option.some.injEq] at h
  rw [← h]

/-- **Step lemma**: a turn of the monitor in which no removal cuts the shutdown short. -/
theorem completed_turn {w' : World} {io : Option String} {es : List Entry}
    (hdeparted : Departed (sources triggers) w (departure log))
    (hnot : ¬ CutsShort (w, log) (.own (.monitor io))) (hmonitor : w.monitor io = some w')
    (hT : w.Turn w'.point (sources w'.triggers) es)
    (hsome : w'.notifier.isSome = w.notifier.isSome) : Completed triggers (w', log ++ es) := by
  generalize hp' : w'.point = p' at hT
  generalize hs' : sources w'.triggers = s' at hT
  have hlog : ∀ es, departure (log ++ es) = departure log ++ departure es := departure_append log
  cases hT with
  | unready hp =>
    rw [completed_iff hp', hlog, (hdeparted.of_serving (by rw [hp]; rfl)).1]
    exact fun ending hmem => nomatch hmem
  | upgraded hp =>
    rw [completed_iff hp', hlog, (hdeparted.of_stopAll hp).1]
    intro ending hmem
    simp [departure, Entry.departs] at hmem
  | @removeFailed ending path ec e rest hp hs =>
    obtain ⟨done, hsrcs, hstory⟩ := hdeparted.of_cleanUp hp
    obtain ⟨queue, ts, htriggers, hts⟩ := triggers_of_sources hs
    rw [hs] at hsrcs
    rw [completed_broken hp' hsrcs (by rw [hlog, hstory]; rfl), ← hts, hsome]
    match io with
    | none => cases hp'.symm.trans (point_of_removed hp htriggers hmonitor)
    | some err =>
      constructor
      · by_contra hrest
        exact hnot ⟨err, ending, path, queue, ec, ts, rfl, hp, htriggers, .inl hrest⟩
      · by_contra hannounced
        exact hnot ⟨err, ending, path, queue, ec, ts, rfl, hp, htriggers,
          .inr (by simpa using hannounced)⟩
  | @partialDone reason hp hs =>
    obtain ⟨done, hsrcs, hstory⟩ := hdeparted.of_cleanUp hp
    rw [hs, List.append_nil] at hsrcs
    have hdone : departure (log ++ [])
        = Ending.story (.partialStop reason) (sources triggers) ++ [] := by
      rw [hlog, hstory, hsrcs]
      rfl
    exact completed_story hp' hdone (.inl ⟨rfl, rfl⟩)
  | @stopping ending hp =>
    refine completed_story hp' (by rw [hlog, (hdeparted.of_notifyStopping hp).2]) ?_
    rw [Departed.departure_report_stopping, hsome]
    split
    · exact .inr ⟨none, rfl⟩
    · rename_i hnot
      refine .inl ⟨rfl, ?_⟩
      cases ending <;> simp_all [Ending.announced]
  | @unstopping ending e hp hn =>
    have hdone : departure (log ++ [.notice .stopping (some e)])
        = ending.story (sources triggers) ++ [.notice .stopping (some e)] := by
      rw [hlog, (hdeparted.of_notifyStopping hp).2]
      rfl
    exact completed_story hp' hdone (.inr ⟨some e, rfl⟩)
  | _ =>
    intro res ending hreturned
    rw [hp'] at hreturned
    cases hreturned

/-- A removal that cuts the shutdown short leaves it incomplete. -/
theorem not_completed_of_cutsShort {w' : World} {log' : List Entry} {e : Happening}
    (hr : (chronicle parent triggers notifier).Reachable (w, log))
    (h : (chronicle parent triggers notifier).step (w, log) e = some (w', log'))
    (hcuts : CutsShort (w, log) e) : ¬ Completed triggers (w', log') := by
  obtain ⟨err, ending, path, queue, ec, ts, rfl, hpoint, htriggers, hrest⟩ := hcuts
  have hpoint : w.point = .cleanUp ending := hpoint
  have htriggers : w.triggers = (.uds path queue, ec) :: ts := htriggers
  obtain ⟨hstep, rfl⟩ := TransitionSystem.recording_step_eq_some.mp h
  have hmonitor : w.monitor (some err) = some w' := hstep
  simp only [World.monitor, hpoint, htriggers, Option.some.injEq] at hmonitor
  have hentries : World.entries w (.own (.monitor (some err))) w'
      = [.removal path (some err)] := by
    simp [World.entries, World.deeds, World.begins, hpoint, htriggers]
  obtain ⟨done, hsrcs, hstory⟩ := (departed_of_reachable hr).of_cleanUp hpoint
  have hsources : sources w.triggers = (.unixListener path, ec) :: sources ts := by
    rw [htriggers]
    rfl
  rw [hsources] at hsrcs
  rw [hentries, completed_broken (by rw [← hmonitor]) hsrcs (by rw [departure_append, hstory]; rfl),
    ← hmonitor]
  rintro ⟨hnil, hannounced⟩
  rcases hrest with hne | hyes
  · exact hne hnil
  · cases hannounced.symm.trans hyes

/-- **A shutdown completes** in every run in which no removal fails but the last, and that
one only if no notice is to follow; and any other failure of a removal ends the shutdown
before it is complete. -/
theorem shutdown_completes_iff (parent : Proc) (triggers : List (Trigger × ExitCondition))
    (notifier : Option (List Notice)) :
    (∀ r, (chronicle parent triggers notifier).ReachableVia (fun r e => ¬ CutsShort r e) r →
      Completed triggers r) ∧
    (∀ r e r', (chronicle parent triggers notifier).Reachable r →
      (chronicle parent triggers notifier).step r e = some r' → CutsShort r e →
      ¬ Completed triggers r') := by
  constructor
  · intro r hr
    refine chronicle_invariant (I := fun w log => Completed triggers (w, log)) hr ?_ ?_ ?_ ?_
    · intro res ending hreturned
      cases hreturned
    · intro w log io w' es hr _ hG hmonitor hT hsome
      exact completed_turn (departed_of_reachable hr) hG hmonitor hT hsome
    · intro w log e w' _ hI _ hpoint _ hnotifier _ _ res ending hreturned
      rw [hpoint] at hreturned
      rw [hnotifier]
      exact hI res ending hreturned
    · intro w log c m _ hI _ res ending hreturned hmem
      have hremovals : removals (log ++ [.heard c m]) = removals log := by
        rw [removals_append]
        exact List.append_nil _
      have hfarewells : farewells (log ++ [.heard c m]) = farewells log := by
        rw [farewells_append]
        exact List.append_nil _
      rw [hremovals, hfarewells]
      exact hI res ending hreturned (by simpa using hmem)
  · rintro ⟨w, log⟩ e ⟨w', log'⟩ hr h hcuts
    exact not_completed_of_cutsShort hr h hcuts

/-- The process is stopped; the first of its two sockets cannot be removed. -/
def failedRemoval : List Happening :=
  (([.monitor none] : List World.Event) ++ stopBy 1 ++
    ([.monitor none, .monitor (some "Permission denied (os error 13)")] :
      List World.Event)).map .own

/-- The second socket is not even tried, and systemd is not told. -/
theorem failed_removal_cuts_shutdown :
    ¬ ∀ (parent : Proc) (triggers : List (Trigger × ExitCondition))
        (notifier : Option (List Notice)) (r : World × List Entry),
        (chronicle parent triggers notifier).Reachable r → Completed triggers r := by
  intro hall
  obtain ⟨⟨w, log⟩, hrun, hp⟩ := TransitionSystem.exists_run supervised supervisedInit
    failedRemoval
    (fun r => (r.1.point matches .returned _) ∧ (removals r.2).length = 1 ∧
      (r.2.any fun e => e matches .shutdown (.fullStop _)) = true) (by decide +kernel)
  obtain ⟨hreturned, hremovals, hshutdown⟩ := of_decide_eq_true hp
  have hcompleted := hall _ _ _ _ (reachable_supervised hrun)
  obtain ⟨e, he, hmatch⟩ := List.any_eq_true.mp hshutdown
  split at hmatch
  · split at hreturned
    · rename_i hpoint
      have hlength := congrArg List.length (hcompleted _ _ hpoint he).1
      rw [List.length_map, hremovals] at hlength
      cases hlength
    · cases hreturned
  · cases hmatch

/-! ## No shutdown with live listeners -/

/-- When a shutdown has begun, the registry had been closed and the run state published
before it, and every stream that stops on shutdown has ended. -/
def QuitFirst (r : World × List Entry) : Prop :=
  ∀ ending, .shutdown ending ∈ r.2 → ∃ ec,
    r.2.filter Entry.isMilestone = [.closedUsed, .published ec, .shutdown ending] ∧
    r.1.runState = some ec ∧ StopOnShutdown.yes.shouldContinue r.1.runState = false

/-- `monitor` gives up: polling the triggers fails, the notice that the process reloads
fails, or the result of the attempt is lost with its thread. -/
def GivesUp (r : World × List Entry) (e : Happening) : Prop :=
  ∃ io, e = .own (.monitor io) ∧
    (r.1.point = .polling ∧
        (∃ msg ts, pollTriggers r.1.runState r.1.triggers = some (.error msg, ts)) ∨
      (∃ reason, r.1.point = .reloading reason) ∧ r.1.notifier.isSome = true ∧ io.isSome = true ∨
      ∃ n reason, r.1.point = .awaiting n reason ∧
        (r.1.family.sys.comp n).main = .panicked)

theorem milestones_departure (log : List Entry) :
    (departure log).filter Entry.isMilestone = log.filter Entry.isMilestone :=
  filter_departure fun e he => by cases e <;> simp_all [Entry.isMilestone, Entry.departs]

/-- What is recorded of a shutdown that has begun. -/
theorem Departed.of_shutdown {srcs : List (ExitReason × ExitCondition)} {es : List Entry}
    {ending : Ending} (h : Departed srcs w es) (hmem : .shutdown ending ∈ es) :
    es.filter Entry.isMilestone = ending.opening ++ [.shutdown ending] := by
  have hstory : ∀ (ending' : Ending) (done : List (ExitReason × ExitCondition))
      (tail : List Entry), .shutdown ending ∈ ending'.story done ++ tail →
      (∀ e ∈ tail, e.isMilestone = false) →
      (ending'.story done ++ tail).filter Entry.isMilestone
        = ending.opening ++ [Entry.shutdown ending] := by
    intro ending' done tail hmem htail
    have hnot : .shutdown ending ∉ tail := fun hin => nomatch htail _ hin
    obtain rfl : ending = ending' :=
      shutdown_mem_story.mp ((List.mem_append.mp hmem).resolve_right hnot)
    have hnil : tail.filter Entry.isMilestone = [] := by simpa using htail
    rw [List.filter_append, filter_story (fun _ => rfl), hnil, List.append_nil]
    cases ending <;> rfl
  cases h with
  | serving | quitting => cases hmem
  | closed => simp at hmem
  | @cleaning ending' done hp hs =>
    simpa using hstory ending' done [] (by simpa using hmem) (by simp)
  | @notifying ending' hp hn =>
    simpa using hstory ending' srcs [] (by simpa using hmem) (by simp)
  | returned hp he =>
    cases he with
    | unready => cases hmem
    | upgraded => simp at hmem
    | @broken ending' done rest path ec e hs =>
      exact hstory ending' done _ hmem (by simp [Entry.isMilestone])
    | @partially reason mode hm =>
      simpa using hstory (.partialStop reason) srcs [] (by simpa using hmem) (by simp)
    | @stopped ending' hn =>
      refine hstory ending' srcs _ hmem ?_
      split <;> simp [Entry.isMilestone]
    | @unstopped ending' e hn henabled =>
      exact hstory ending' srcs _ hmem (by simp [Entry.isMilestone])

/-- The run state is published by the second half of `quit` only. -/
theorem World.Turn.published {p : Point} {srcs : List (ExitReason × ExitCondition)}
    {es : List Entry} {ec : ExitCondition} (hT : w.Turn p srcs es) (h : .published ec ∈ es) :
    ∃ reason, w.point = .stopAll ec reason := by
  cases hT <;> simp_all [World.report]

/-- `monitor` sets the run state in the second half of `quit` only. -/
theorem World.runState_monitor {w' : World} {io : Option String} (h : w.monitor io = some w') :
    w'.runState = w.runState ∨
      ∃ ec reason, w.point = .stopAll ec reason ∧ w'.runState = some ec := by
  rcases World.monitor_eq_some h with ⟨ts, nt, p, -, rfl⟩ | ⟨ec, reason, -, rfl⟩ |
    ⟨ec, reason, hpoint, rfl⟩ | ⟨reason, -, rfl⟩
  · exact .inl rfl
  · exact .inl rfl
  · exact .inr ⟨ec, reason, hpoint, rfl⟩
  · exact .inl rfl

/-- What was published is the run state. -/
theorem runState_of_published {G : World × List Entry → Happening → Prop}
    (hr : (chronicle parent triggers notifier).ReachableVia G (w, log)) {ec : ExitCondition}
    (hmem : .published ec ∈ log) : w.runState = some ec := by
  refine chronicle_invariant
    (I := fun w log => ∀ ec, .published ec ∈ log → w.runState = some ec) hr ?_ ?_ ?_ ?_ ec hmem
  · intro ec hmem
    cases hmem
  · intro w log io w' es hr hI _ hmonitor hT _ ec hmem
    have hquit : ∀ ec reason ec', w.point = .stopAll ec reason → .published ec' ∉ log := by
      intro ec reason ec' hpoint hold
      have hmem' : .published ec' ∈ departure log := List.mem_filter.mpr ⟨hold, rfl⟩
      rw [((departed_of_reachable hr).of_stopAll hpoint).1] at hmem'
      simp at hmem'
    rcases List.mem_append.mp hmem with hold | hnew
    · rcases World.runState_monitor hmonitor with heq | ⟨ec', reason, hpoint, -⟩
      · exact heq.trans (hI ec hold)
      · exact absurd hold (hquit ec' reason ec hpoint)
    · obtain ⟨reason, hpoint⟩ := hT.published hnew
      simp only [World.monitor, hpoint, Option.some.injEq] at hmonitor
      rw [← hmonitor]
  · intro w log e w' _ hI _ _ _ _ hrun _ ec hmem
    exact hrun.trans (hI ec hmem)
  · intro w log c m _ hI _ ec hmem
    exact hI ec (by simpa using hmem)

/-- What giving up looks like from its outcome. -/
theorem givesUp_of_failed {w' : World} {io : Option String} {es : List Entry} {msg : String}
    (hmonitor : w.monitor io = some w') (hT : w.Turn w'.point (sources w'.triggers) es)
    (hmem : .shutdown (.failed msg) ∈ es) : GivesUp (w, log) (.own (.monitor io)) := by
  refine ⟨io, rfl, ?_⟩
  generalize hp' : w'.point = p' at hT
  generalize hs' : sources w'.triggers = s' at hT
  cases hT with
  | @pollFailed msg' hp =>
    refine .inl ⟨hp, ?_⟩
    simp only [World.monitor, hp] at hmonitor
    split at hmonitor
    · cases hmonitor
    · rename_i r ec ts hpoll
      cases hmonitor
      cases ec <;> cases hp'
    · rename_i e ts hpoll
      exact ⟨e, ts, hpoll⟩
  | @unreloading reason e msg' hp hn =>
    refine .inr (.inl ⟨⟨reason, hp⟩, hn, ?_⟩)
    simp only [World.monitor, hp, Option.some.injEq] at hmonitor
    cases io with
    | some err => rfl
    | none =>
      obtain ⟨nt, hnt⟩ := Option.isSome_iff_exists.mp hn
      rw [← hmonitor] at hp'
      simp [World.notify, hnt] at hp'
  | @lost n reason msg' hp hpanicked => exact .inr (.inr ⟨n, reason, hp, hpanicked⟩)
  | ready hp | stopping hp | reloading hp => simp [World.report] at hmem
  | _ => simp at hmem

/-- Where a clean-up begins, the shutdown is recorded. -/
theorem World.shutdown_mem_entries {w' : World} {io : Option String} {ending : Ending}
    (hpoint : ∀ ending, w.point ≠ .cleanUp ending) (hpoint' : w'.point = .cleanUp ending) :
    .shutdown ending ∈ w.entries (.own (.monitor io)) w' := by
  refine List.mem_append_right _ ?_
  cases hp : w.point <;> simp_all [World.begins]

/-- Giving up leads straight to the clean-up. -/
theorem failed_of_givesUp {w' : World} {log' : List Entry} {e : Happening}
    (h : (chronicle parent triggers notifier).step (w, log) e = some (w', log'))
    (hgives : GivesUp (w, log) e) : ∃ msg, .shutdown (.failed msg) ∈ log' := by
  obtain ⟨io, rfl, hcases⟩ := hgives
  obtain ⟨hstep, rfl⟩ := TransitionSystem.recording_step_eq_some.mp h
  have hmonitor : w.monitor io = some w' := hstep
  dsimp only at hcases
  rcases hcases with ⟨hp, msg, ts, hpoll⟩ | ⟨⟨reason, hp⟩, hsome, hio⟩ |
    ⟨n, reason, hp, hpanicked⟩
  · simp only [World.monitor, hp, hpoll, Option.some.injEq] at hmonitor
    subst hmonitor
    exact ⟨_, List.mem_append_right _ (World.shutdown_mem_entries (by simp [hp]) rfl)⟩
  · obtain ⟨nt, hnt⟩ := Option.isSome_iff_exists.mp hsome
    obtain ⟨err, rfl⟩ := Option.isSome_iff_exists.mp hio
    simp only [World.monitor, hp, World.notify, hnt, Option.some.injEq] at hmonitor
    subst hmonitor
    exact ⟨_, List.mem_append_right _ (World.shutdown_mem_entries (by simp [hp]) rfl)⟩
  · simp only [World.monitor, hp, hpanicked, Option.some.injEq] at hmonitor
    subst hmonitor
    exact ⟨_, List.mem_append_right _ (World.shutdown_mem_entries (by simp [hp]) rfl)⟩

/-- **No shutdown with live listeners**, in every run in which `monitor` does not give up;
and when it gives up, it shuts down with its listeners alive. -/
theorem quit_before_shutdown_iff (parent : Proc) (triggers : List (Trigger × ExitCondition))
    (notifier : Option (List Notice)) :
    (∀ r, (chronicle parent triggers notifier).ReachableVia (fun r e => ¬ GivesUp r e) r →
      QuitFirst r) ∧
    (∀ r e r', (chronicle parent triggers notifier).Reachable r →
      (chronicle parent triggers notifier).step r e = some r' → GivesUp r e →
      ¬ QuitFirst r') := by
  constructor
  · rintro ⟨w, log⟩ hr ending hmem
    have hmem : .shutdown ending ∈ log := hmem
    have hnot : ∀ msg, .shutdown (.failed msg) ∉ log := by
      refine chronicle_invariant
        (I := fun _ log => ∀ msg, .shutdown (.failed msg) ∉ log) hr ?_ ?_ ?_ ?_
      · simp
      · intro w log io w' es _ hI hG hmonitor hT _ msg hmem
        rcases List.mem_append.mp hmem with hold | hnew
        · exact hI msg hold
        · exact hG (givesUp_of_failed hmonitor hT hnew)
      · intro w log e w' _ hI _ _ _ _ _ _
        exact hI
      · intro w log c m _ hI _
        simpa using hI
    have hmilestones := (departed_of_reachable hr).of_shutdown (shutdown_mem_departure.mpr hmem)
    rw [milestones_departure] at hmilestones
    have hpublished : ∀ ec, .published ec ∈ ending.opening → w.runState = some ec := by
      intro ec hec
      have hin : .published ec ∈ log.filter Entry.isMilestone := by
        rw [hmilestones]
        exact List.mem_append_left _ hec
      exact runState_of_published hr (List.mem_filter.mp hin).1
    cases ending with
    | failed msg => exact absurd hmem (hnot msg)
    | fullStop reason =>
      have hrun := hpublished .stop (by simp [Ending.opening])
      exact ⟨.stop, hmilestones, hrun, by simp [hrun, StopOnShutdown.shouldContinue]⟩
    | partialStop reason =>
      have hrun := hpublished .partialStop (by simp [Ending.opening])
      exact ⟨.partialStop, hmilestones, hrun, by simp [hrun, StopOnShutdown.shouldContinue]⟩
  · rintro ⟨w, log⟩ e ⟨w', log'⟩ hr h hgives hquit
    obtain ⟨msg, hmem⟩ := failed_of_givesUp h hgives
    obtain ⟨ec, hmilestones, -⟩ := hquit _ hmem
    have hdeparted := (departed_of_reachable (hr.step h)).of_shutdown
      (shutdown_mem_departure.mpr hmem)
    rw [milestones_departure] at hdeparted
    cases hdeparted.symm.trans hmilestones

/-- Accepting a connection on the socket of a trigger fails. -/
def failedAccept : List Happening :=
  [.own (.monitor none),
    .own (.arrive 1 (.connection (.error "Too many open files (os error 24)"))),
    .own (.monitor none), .own (.monitor none), .own (.monitor none), .own (.monitor none),
    .own (.monitor none), .own (.monitor none)]

/-- The sockets of the triggers are removed and systemd is told that the process stops, with
the run state not set and the registry not closed. -/
theorem failed_accept_skips_quit :
    ¬ ∀ (parent : Proc) (triggers : List (Trigger × ExitCondition))
        (notifier : Option (List Notice)) (r : World × List Entry),
        (chronicle parent triggers notifier).Reachable r → QuitFirst r := by
  intro hall
  obtain ⟨⟨w, log⟩, hrun, hp⟩ := TransitionSystem.exists_run supervised supervisedInit
    failedAccept
    (fun r => r.1.runState = none ∧ r.1.parent.usedFds.length = 1 ∧
      (removals r.2).length = 2 ∧ (farewells r.2).length = 1 ∧
      (r.2.any fun e => e matches .shutdown _) = true) (by decide +kernel)
  obtain ⟨hrun', -, -, -, hshutdown⟩ := of_decide_eq_true hp
  obtain ⟨e, he, hmatch⟩ := List.any_eq_true.mp hshutdown
  split at hmatch
  · obtain ⟨ec, -, hsome, -⟩ := hall _ _ _ _ (reachable_supervised hrun) _ he
    cases hrun'.symm.trans hsome
  · cases hmatch

end

end Upgrader
