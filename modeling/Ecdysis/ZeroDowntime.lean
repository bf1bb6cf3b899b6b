/-
# Upgrades without downtime, and what an upgrade can lose

Two results on the monitor, over every interleaving with the attempts, their children and
the application:

* `zero_downtime` : `quit` for an upgrade runs only when the child has completed `ready`
  and has been seen alive after that; until then whatever a child has claimed is open in
  the parent, and afterwards in the child that took over, as long as it runs; failed
  attempts leave the registry, the run state and the triggers as they were.  A parent that
  is told to stop closes its sockets whatever became of its children
  (`stop_closes_claimed_socket`).
* `no_socket_lost_iff` : when the registry is about to be closed for an upgrade, the
  sockets the application has obtained are all in the list the child was sent exactly when
  all of them were registered before that list was taken.  One that was registered while
  the upgrade was running is not (`late_socket_lost`).
-/
import Ecdysis.MonitorInvariant

open Executioner

/-- Some number of the process refers to the file. -/
def Proc.HasOpen (p : Proc) (file : ℕ) : Prop := ∃ fd, p.fileOf fd = some file

theorem Proc.Holds.hasOpen {p : Proc} {file : ℕ} (h : p.Holds file) : p.HasOpen file := by
  obtain ⟨li, -, hfile⟩ := h
  exact ⟨li.fd, hfile⟩

namespace Upgrader

namespace World

variable {w w' : World} {parent : Proc} {triggers : List (Trigger × ExitCondition)}
  {notifier : Option (List Notice)}

/-! ## No downtime -/

/-- The child of attempt `n` has claimed the file. -/
def Claimed (w : World) (n : ℕ) (file : ℕ) : Prop :=
  ∃ life, w.kids n = some life ∧ life.Claimed file

theorem claimed_of_any {n file : ℕ}
    (h : ((w.kids n).any fun life => life.log.any fun x => x.2 = .handed (some file)) = true) :
    w.Claimed n file := by
  simp only [Option.any_eq_true, List.any_eq_true, decide_eq_true_eq] at h
  obtain ⟨life, hlife, ⟨k, a⟩, hmem, rfl⟩ := h
  exact ⟨life, hlife, k, hmem⟩

/-- The child of attempt `n` runs and has the file open. -/
def ChildHas (w : World) (n : ℕ) (file : ℕ) : Prop :=
  (w.family.sys.comp n).child.alive = true ∧
    ∃ life, w.kids n = some life ∧ life.proc.HasOpen file

/-- The child of attempt `n` has exited after it had been seen alive and ready. -/
def ExitedSeen (w : World) (n : ℕ) : Prop :=
  (w.family.sys.comp n).child.alive = false ∧ (w.family.sys.comp n).SeenReady

/-- What a child has claimed stays open: in the parent until `quit` closes its registry,
and after an upgrade in the child that took over. -/
theorem Sound.open_of_claimed (hw : w.Sound parent triggers) {n file : ℕ}
    (hclaimed : w.Claimed n file)
    (hclosed : w.closedFor = none ∨ w.closedFor = some .upgrade ∧ w.attempts = n + 1) :
    w.parent.HasOpen file ∨ w.ChildHas n file ∨ w.ExitedSeen n := by
  obtain ⟨life, hlife, hfile⟩ := hclaimed
  rcases hclosed with hopen | ⟨hclosed, hn⟩
  · exact .inl ((hw.stock.held hopen n life hlife).claimed file hfile).hasOpen
  · have hquit : w.quitting = some .upgrade := by
      unfold quitting
      split
      · rename_i hpoint
        simp [closedFor, hpoint] at hclosed
      · exact hclosed
    obtain ⟨m, hm, hok⟩ := hw.course.accepted hquit
    -- the parent has quit for this attempt, so its child was ready and alive then
    obtain rfl : n = m := by omega
    right
    cases halive : (w.family.sys.comp n).child.alive with
    | true =>
      have hholds := (hw.children.keeps n life hlife).claimed file hfile
      exact .inl ⟨halive, life, hlife, hholds.hasOpen⟩
    | false => exact .inr ⟨halive, (log_of_result_ok hw.children.family.sys hok).2.2⟩

/-! ## Triggers between polls -/

/-- The step completes a poll. -/
def completesPoll (w : World) (e : Event) : Bool :=
  match e, w.point with
  | .monitor _, .polling => true
  | _, _ => false

/-- The triggers after what arrives in a sequence of events. -/
def received (es : List Event) (ts : List (Trigger × ExitCondition)) :
    List (Trigger × ExitCondition) :=
  es.foldl (fun ts e =>
    match e with
    | .arrive i a => ts.modify i fun t => (t.1.receive a, t.2)
    | _ => ts) ts

/-- **Step lemma**: until the triggers are cleaned up, they change by what arrives at them
and by polls. -/
theorem triggers_step {e : Event} (hpoll : w.completesPoll e = false)
    (hleaving : w.point.leaving = false) (h : w.step e = some w') :
    w'.triggers = received [e] w.triggers := by
  by_cases he : ∃ io, e = .monitor io
  · obtain ⟨io, rfl⟩ := he
    refine triggers_of_monitor ?_ hleaving h
    intro hpoint
    simp [completesPoll, hpoint] at hpoll
  · have hne : ∀ io, e ≠ .monitor io := fun io heq => he ⟨io, heq⟩
    cases e with
    | monitor io => exact absurd rfl (hne io)
    | arrive i a =>
      cases h
      rfl
    | family _ | kid _ _ | listen _ | returns _ | openFd _ _ | closeFd _ =>
      rcases triggers_beside h hne with hsame | ⟨i, a, heq, -⟩
      · exact hsame
      · cases heq

/-- **Run lemma**: so between two polls they change by what arrives at them only. -/
theorem triggers_run {es : List Event}
    (hrun : (world parent triggers notifier).run w es = some w')
    (hpolls : (world parent triggers notifier).Along (fun s e _ => s.completesPoll e = false) w es)
    (hleaving : w'.point.leaving = false) :
    w.point.leaving = false ∧ w'.triggers = received es w.triggers := by
  induction es generalizing w with
  | nil =>
    cases hrun
    exact ⟨hleaving, rfl⟩
  | cons e es ih =>
    rw [TransitionSystem.run_cons, Option.bind_eq_some_iff] at hrun
    obtain ⟨w₁, hstep, hrest⟩ := hrun
    obtain ⟨hpoll, hpolls⟩ := hpolls w₁ hstep
    obtain ⟨hleaving₁, htriggers⟩ := ih hrest hpolls
    have hw := not_leaving_of_step hstep hleaving₁
    refine ⟨hw, ?_⟩
    rw [htriggers, triggers_step hpoll hw hstep]
    rfl

end World

open World

variable {w : World} {parent : Proc} {triggers : List (Trigger × ExitCondition)}
  {notifier : Option (List Notice)}

/-- **Zero downtime**, in every state of every interleaving.

`quit` for an upgrade runs only when the last attempt's child has completed `ready`, so
that its pipe delivered `OK`, and has been seen alive after that.

What the child of any attempt has claimed is open in the parent until `quit` has closed
the parent's registry; after an upgrade, what the child that took over has claimed is open
in it, unless it has exited after having been seen alive.

While the monitor is in its loop, the supervisor's run state is `None`, the triggers are
those it started with, and the entries in use are those it started with and those the
application has added, whatever attempts have failed.

From any state on, until the monitor polls again, and so from the beginning of an attempt to
the poll that follows its failure, what waits at the triggers changes by what arrives at them
and by nothing else. -/
theorem zero_downtime (hr : (world parent triggers notifier).Reachable w) :
    (w.quitting = some .upgrade → ∃ n, w.attempts = n + 1 ∧
      (∃ life, w.kids n = some life ∧ life.ready = true) ∧
      (delivered (w.family.sys.comp n).log).take 2 = okBytes ∧
      (w.family.sys.comp n).SeenReady) ∧
    (∀ n file, w.Claimed n file →
      w.closedFor = none ∨ w.closedFor = some .upgrade ∧ w.attempts = n + 1 →
      w.parent.HasOpen file ∨ w.ChildHas n file ∨ w.ExitedSeen n) ∧
    (w.point.serving = true → w.runState = none ∧ sources w.triggers = sources triggers ∧
      w.parent.usedFds = parent.usedFds ++ w.calls.filterMap AppCall.entry) ∧
    (∀ es w', (world parent triggers notifier).run w es = some w' →
      (world parent triggers notifier).Along (fun s e _ => s.completesPoll e = false) w es →
      w'.point.serving = true → w'.triggers = received es w.triggers) := by
  have hw := sound_of_reachable hr
  refine ⟨fun hquit => ?_, fun n file => hw.open_of_claimed, fun hserving => ?_,
    fun es w' hrun hpolls hserving => ?_⟩
  · obtain ⟨n, hn, hok⟩ := hw.course.accepted hquit
    obtain ⟨hdel, -, hseen⟩ := log_of_result_ok hw.children.family.sys hok
    have hcalled := hw.children.family.called_of_ok hok
    exact ⟨n, hn, hw.children.called n hcalled, by rw [hdel]; rfl, hseen⟩
  · have hrun := hw.course.runState hserving
    have hopen : w.closedFor = none := (closedFor_of_serving hserving).trans hrun
    exact ⟨hrun, hw.course.triggers hserving, (hw.stock.booked hopen).used⟩
  · exact (triggers_run hrun hpolls (not_leaving_of_serving hserving)).2

/-! ### A parent that listens on one address -/

/-- A process that listens on the address under number 3, with the registry's duplicate
under number 4. -/
def listeningProc : Proc where
  limit := 16
  table := fun fd => if fd = 3 ∨ fd = 4 then some ⟨7, true⟩ else none
  inheritedFds := []
  usedFds := [⟨4, .tcp loopback⟩]

theorem wf_listeningProc : listeningProc.WF := by
  constructor <;> simp [Proc.registered, listeningProc]

/-- It upgrades on one signal and stops on another. -/
def twoSignals : List (Trigger × ExitCondition) :=
  [(.signal 1 false, .upgrade), (.signal 15 false, .stop)]

/-- The process with its monitor. -/
abbrev listening : TransitionSystem World World.Event := world listeningProc twoSignals none

/-- Its state at the start. -/
abbrev listeningInit : World := World.init listeningProc twoSignals none

theorem reachable_listening {w : World} {es : List World.Event}
    (h : listening.run listeningInit es = some w) : listening.Reachable w :=
  TransitionSystem.reachable_of_run (.init ⟨wf_listeningProc, rfl, rfl⟩) h

/-- Steps of the threads of the upgrade procedure. -/
def threads (es : List Executioner.Event) : List World.Event :=
  es.map fun e => .family (.thread e)

/-- The process is told to upgrade; the child is sent its list and claims the socket. -/
def beginUpgrade : List World.Event :=
  ([.monitor none, .arrive 0 .signal, .monitor none, .monitor none, .monitor none] :
    List World.Event) ++ threads (launch 0 ++ ([.act 0 (.send none)] : List Executioner.Event)) ++
  ([.kid 0 (.listen (.tcp loopback (.failed "address in use")))] : List World.Event)

/-- The child becomes ready and is found alive; the attempt succeeds. -/
def becomeReady : List World.Event :=
  ([.family (.ready 0), .family (.notify 0), .family (.notify 0), .family (.close 0)] :
    List World.Event) ++
  threads (([.act 0 .waitReady, .act 0 .waitReady] : List Executioner.Event) ++ clearFlag 0 ++
    ([.env 500, .act 0 .waitChild, .act 0 .waitChild, .act 0 .waitChild, .act 0 .waitChild,
      .act 0 .main, .act 0 .main] : List Executioner.Event)) ++
  ([.monitor none] : List World.Event)

/-- The child exits before it is ready; the attempt fails. -/
def crash : List World.Event :=
  ([.family (.exit 0)] : List World.Event) ++
  threads (([.act 0 .waitReady] : List Executioner.Event) ++ clearFlag 0 ++
    ([.env 500, .act 0 .waitChild, .act 0 .waitChild, .act 0 .main, .act 0 .main] :
      List Executioner.Event)) ++
  ([.monitor none] : List World.Event)

/-- `quit` runs. -/
def quit : List World.Event := [.monitor none, .monitor none]

/-- A successful upgrade: the socket the child claimed is with the child. -/
theorem zero_downtime_upgraded :
    ∃ w, listening.Reachable w ∧ w.quitting = some .upgrade ∧
      (∃ n, w.attempts = n + 1 ∧ (∃ life, w.kids n = some life ∧ life.ready = true) ∧
        (delivered (w.family.sys.comp n).log).take 2 = okBytes ∧
        (w.family.sys.comp n).SeenReady) ∧
      (w.parent.HasOpen 7 ∨ w.ChildHas 0 7 ∨ w.ExitedSeen 0) := by
  obtain ⟨w, hw, hp⟩ := TransitionSystem.exists_run listening listeningInit
    (beginUpgrade ++ becomeReady ++ quit)
    (fun w => w.quitting = some .upgrade ∧ w.closedFor = some .upgrade ∧ w.attempts = 1 ∧
      ((w.kids 0).any fun life => life.log.any fun x => x.2 = .handed (some 7)) = true)
    (by decide +kernel)
  obtain ⟨hquit, hclosed, hattempts, hlog⟩ := of_decide_eq_true hp
  have hr := reachable_listening hw
  obtain ⟨hready, hopen, -⟩ := zero_downtime hr
  exact ⟨w, hr, hquit, hready hquit, hopen 0 7 (claimed_of_any hlog) (.inr ⟨hclosed, hattempts⟩)⟩

/-- The events that open numbers in the parent. -/
def World.Event.opens : World.Event → Bool
  | .listen _ | .openFd _ _ => true
  | _ => false

/-- Other events only close them. -/
theorem World.table_step {w w' : World} {e : World.Event} (he : e.opens = false)
    (h : w.step e = some w') (fd : RawFd) (hfd : w.parent.table fd = none) :
    w'.parent.table fd = none := by
  cases e with
  | monitor io =>
    rcases monitor_eq_some h with ⟨_, _, _, _, rfl⟩ | ⟨_, _, _, rfl⟩ | ⟨_, _, _, rfl⟩ |
      ⟨_, _, rfl⟩
    · exact hfd
    · show w.parent.table.closeAll _ fd = none
      rw [DescriptorTable.closeAll_apply]
      split
      · rfl
      · exact hfd
    · exact hfd
    · exact hfd
  | arrive i a | returns i =>
    cases h
    exact hfd
  | family e | kid n e =>
    simp only [World.step] at h
    split at h
    · obtain ⟨_, -, rfl⟩ := Option.map_eq_some_iff.mp h
      exact hfd
    · cases h
  | closeFd fd' =>
    simp only [World.step] at h
    split at h
    · cases h
      by_cases hne : fd = fd'
      · subst hne
        simp [Proc.closeFdQuiet]
      · simp [Proc.closeFdQuiet, hne, hfd]
    · cases h
  | listen r | openFd fd' d => cases he

/-- An upgrade fails, and then the process is told to stop; its listener is dropped. -/
def stopRun : List World.Event :=
  beginUpgrade ++ crash ++
  ([.monitor none, .arrive 1 .signal, .monitor none] : List World.Event) ++ quit ++
  ([.closeFd 3] : List World.Event)

/-- A socket that the child of the last attempt claimed need not be open anywhere although
the child has not exited after being seen alive: the child crashed before it was ready, and
the parent was stopped after that. -/
theorem stop_closes_claimed_socket :
    ¬ ∀ (parent : Proc) (triggers : List (Trigger × ExitCondition))
        (notifier : Option (List Notice)) (w : World),
        (world parent triggers notifier).Reachable w →
        ∀ n file, w.attempts = n + 1 → w.Claimed n file →
          w.parent.HasOpen file ∨ w.ChildHas n file ∨ w.ExitedSeen n := by
  intro hall
  obtain ⟨w, hw, hp⟩ := TransitionSystem.exists_run listening listeningInit
    stopRun
    (fun w => w.attempts = 1 ∧ (w.family.sys.comp 0).child.alive = false ∧
      delivered (w.family.sys.comp 0).log = [] ∧ w.parent.fileOf 3 = none ∧
      w.parent.fileOf 4 = none ∧
      ((w.kids 0).any fun life => life.log.any fun x => x.2 = .handed (some 7)) = true)
    (by decide +kernel)
  obtain ⟨hattempts, hdead, hdel, hthree, hfour, hlog⟩ := of_decide_eq_true hp
  -- no event of the run opens a number, so only 3 and 4 could refer to the file
  have hother : ∀ fd, fd ≠ 3 → fd ≠ 4 → w.parent.table fd = none := by
    intro fd h3 h4
    refine TransitionSystem.run_preserves (P := fun w => w.parent.table fd = none)
      (fun e he s s' hs h => table_step ?_ h fd hs) ?_ hw
    · simpa using List.all_eq_true.mp (by decide : stopRun.all fun e => !e.opens) e he
    · simp [World.init, listeningProc, h3, h4]
  rcases hall _ _ _ w (reachable_listening hw) 0 7 hattempts (claimed_of_any hlog) with
    ⟨fd, hfd⟩ | ⟨halive, -⟩ | ⟨-, hseen⟩
  · by_cases h3 : fd = 3
    · subst h3
      cases hthree.symm.trans hfd
    · by_cases h4 : fd = 4
      · subst h4
        cases hfour.symm.trans hfd
      · simp [Proc.fileOf, hother fd h3 h4] at hfd
  · cases hdead.symm.trans halive
  · have hok := hseen.delivered
    rw [hdel] at hok
    cases hok

/-! ## Sockets made during an upgrade -/

/-- **Which sockets an upgrade takes along.**  When the monitor is about to close the
registry for an upgrade, the last attempt `n` is the one that succeeded, and every socket a
call of the application has returned is in the list sent to its child if and only if every
such call registered its socket before that list was taken. -/
theorem no_socket_lost_iff {reason : ExitReason}
    (hr : (world parent triggers notifier).Reachable w)
    (hpoint : w.point = .closeUsed .upgrade reason) :
    ∃ n, w.attempts = n + 1 ∧ w.result n = some (.ok ()) ∧
      ((∀ c ∈ w.calls, c.returned = true → c.result.isOk = true →
          ∃ li, c.entry = some li ∧ li ∈ w.sent n) ↔
        ∀ c ∈ w.calls, c.returned = true → c.result.isOk = true → c.attempt ≤ n) := by
  have hw := sound_of_reachable hr
  obtain ⟨n, hn, hok⟩ := hw.course.accepted (by simp [quitting, hpoint])
  have hbooked := hw.stock.booked (by simp [closedFor, hpoint])
  refine ⟨n, hn, hok, fun h c hc hret hres => ?_, fun h c hc hret hres => ?_⟩
  · obtain ⟨li, hli, hmem⟩ := h c hc hret hres
    by_contra hlate
    exact hbooked.late c hc n (by omega) li hli hmem
  · obtain ⟨li, hli⟩ := Option.isSome_iff_exists.mp (hbooked.entry c hc hres)
    exact ⟨li, hli, hbooked.early c hc n (by omega) (h c hc hret hres) li hli⟩

/-- The monitor is about to close the registry. -/
theorem World.point_of_quitting {ec : ExitCondition} (hquit : w.quitting = some ec)
    (hopen : w.closedFor = none) : ∃ reason, w.point = .closeUsed ec reason := by
  unfold quitting at hquit
  split at hquit
  · rename_i reason hpoint
    cases hquit
    exact ⟨reason, hpoint⟩
  · cases hopen.symm.trans hquit

/-- The application listens on a second address, and gets number 8. -/
def listenAgain : List World.Event :=
  [.listen (.tcp (localhost 8081) (.created 8 9 (localhost 8081))), .returns 0]

/-- A socket made before the upgrade is in the list. -/
theorem no_socket_lost_before :
    ∃ w reason, listening.Reachable w ∧ w.point = .closeUsed .upgrade reason ∧
      ∃ n, w.attempts = n + 1 ∧ ∀ c ∈ w.calls, c.returned = true → c.result.isOk = true →
        ∃ li, c.entry = some li ∧ li ∈ w.sent n := by
  obtain ⟨w, hw, hp⟩ := TransitionSystem.exists_run listening listeningInit
    (listenAgain ++ beginUpgrade ++ becomeReady)
    (fun w => w.quitting = some .upgrade ∧ w.closedFor = none ∧ ∀ c ∈ w.calls, c.attempt = 0)
    (by decide +kernel)
  obtain ⟨hquit, hopen, hcalls⟩ := of_decide_eq_true hp
  obtain ⟨reason, hpoint⟩ := point_of_quitting hquit hopen
  have hr := reachable_listening hw
  obtain ⟨n, hn, -, hiff⟩ := no_socket_lost_iff hr hpoint
  refine ⟨w, reason, hr, hpoint, n, hn, hiff.mpr fun c hc _ _ => ?_⟩
  rw [hcalls c hc]
  exact Nat.zero_le n

/-- A socket made between the moment the list for the child was taken and the end of the
upgrade is not: the call has returned it, and closing the registry closes what was kept of
it for a child. -/
theorem late_socket_lost :
    ¬ ∀ (parent : Proc) (triggers : List (Trigger × ExitCondition))
        (notifier : Option (List Notice)) (w : World) (reason : ExitReason) (n : ℕ),
        (world parent triggers notifier).Reachable w → w.point = .closeUsed .upgrade reason →
        w.attempts = n + 1 →
        ∀ c ∈ w.calls, c.returned = true → c.result.isOk = true →
          ∃ li, c.entry = some li ∧ li ∈ w.sent n := by
  intro hall
  obtain ⟨w, hw, hp⟩ := TransitionSystem.exists_run listening listeningInit
    (beginUpgrade ++ listenAgain ++ becomeReady)
    (fun w => w.quitting = some .upgrade ∧ w.closedFor = none ∧ w.attempts = 1 ∧
      (w.sent 0).map ListenerInfo.fd = [4] ∧ ∃ c ∈ w.calls, c.returned = true ∧
        c.result.isOk = true ∧ c.entry.map ListenerInfo.fd = some 9)
    (by decide +kernel)
  obtain ⟨hquit, hopen, hattempts, hsent, c, hc, hret, hok, hentry⟩ := of_decide_eq_true hp
  obtain ⟨reason, hpoint⟩ := point_of_quitting hquit hopen
  obtain ⟨li, hli, hmem⟩ :=
    hall _ _ _ w reason 0 (reachable_listening hw) hpoint hattempts c hc hret hok
  have hfd : li.fd ∈ (w.sent 0).map ListenerInfo.fd := List.mem_map_of_mem hmem
  rw [hli, Option.map_some, Option.some.injEq] at hentry
  rw [hsent, hentry] at hfd
  revert hfd
  decide

end Upgrader
